import RingLock.Coloring.Packed
import RingLock.Proofs.Coloring.Lawful
import RingLock.Proofs.Traversal

/-!
# Packed colorings are lawful

Words of bits, for two colors and rings of at most 32 holes. Every step is first described bit by
bit.
-/
namespace RingLock.Packed

/-- A bit of a word. -/
def bit (word : UInt32) (i : ℕ) : Bool := word.toNat.testBit i

/-- The color that a bit stands for. -/
def shade (b : Bool) : UInt8 := if b then 1 else 0

theorem shade_inj {a b : Bool} : shade a = shade b ↔ a = b := by
  cases a <;> cases b <;> simp [shade]

/-- One of two colors is the shade of its bit. -/
theorem shade_of_lt_two {x : UInt8} (h : x.toNat < 2) {b : Bool} (hb : b = decide (x = 1)) :
    shade b = x := by
  rcases Nat.lt_succ_iff_lt_or_eq.1 h with zero | one
  · obtain rfl : x = 0 := UInt8.toNat_inj.1 (Nat.lt_one_iff.1 zero)
    rw [hb]
    rfl
  · obtain rfl : x = 1 := UInt8.toNat_inj.1 one
    rw [hb]
    rfl

theorem bit_of_le (word : UInt32) {i : ℕ} (h : 32 ≤ i) : bit word i = false :=
  Nat.testBit_lt_two_pow (word.toNat_lt.trans_le (Nat.pow_le_pow_right (by decide) h))

theorem eq_of_bit_eq {a b : UInt32} (h : ∀ i < 32, bit a i = bit b i) : a = b := by
  apply UInt32.toNat_inj.1
  apply Nat.eq_of_testBit_eq fun i => ?_
  by_cases inside : i < 32
  · exact h i inside
  · exact (bit_of_le a (Nat.le_of_not_lt inside)).trans (bit_of_le b (Nat.le_of_not_lt inside)).symm

theorem toNat_ofNat_places {places : ℕ} (h : places < 32) :
    (UInt32.ofNat places).toNat % 32 = places := by
  rw [UInt32.toNat_ofNat_of_lt' (h.trans (by decide)), Nat.mod_eq_of_lt h]

@[simp] theorem bit_and (a b : UInt32) (i : ℕ) : bit (a &&& b) i = (bit a i && bit b i) := by
  simp [bit]

@[simp] theorem bit_or (a b : UInt32) (i : ℕ) : bit (a ||| b) i = (bit a i || bit b i) := by
  simp [bit]

theorem bit_not (a : UInt32) {i : ℕ} (h : i < 32) : bit (~~~a) i = !bit a i := by
  have bits : (~~~a).toBitVec.getLsbD i = (decide (i < 32) && !a.toBitVec.getLsbD i) := by
    rw [UInt32.toBitVec_not, BitVec.getLsbD_not]
  simpa [h, bit, BitVec.getLsbD] using bits

theorem bit_shiftLeft (word : UInt32) {places i : ℕ} (h : places < 32) (hi : i < 32) :
    bit (word <<< UInt32.ofNat places) i = (decide (places ≤ i) && bit word (i - places)) := by
  rw [bit, UInt32.toNat_shiftLeft, toNat_ofNat_places h, Nat.testBit_mod_two_pow,
    Nat.testBit_shiftLeft]
  simp [hi, bit]

theorem bit_shiftRight (word : UInt32) {places : ℕ} (h : places < 32) (i : ℕ) :
    bit (word >>> UInt32.ofNat places) i = bit word (places + i) := by
  rw [bit, UInt32.toNat_shiftRight, toNat_ofNat_places h, Nat.testBit_shiftRight]
  rfl

theorem bit_one (i : ℕ) : bit 1 i = decide (i = 0) := by
  have := Nat.testBit_two_pow (n := 0) (m := i)
  simpa [bit, eq_comm] using this

theorem bit_zero (i : ℕ) : bit 0 i = false := by simp [bit]

/-- A single one. -/
theorem bit_single {place i : ℕ} (h : place < 32) (hi : i < 32) :
    bit (1 <<< UInt32.ofNat place) i = decide (i = place) := by
  rw [bit_shiftLeft 1 h hi, bit_one]
  by_cases same : i = place
  · simp [same]
  · by_cases above : place ≤ i
    · have : i - place ≠ 0 := by omega
      simp [same, this]
    · simp [same, above]

theorem toNat_mask {holes : ℕ} (h : holes ≤ 32) : (mask holes).toNat = 2 ^ holes - 1 := by
  unfold mask
  split
  case isTrue short =>
    have power : 2 ^ holes < 2 ^ 32 := Nat.pow_lt_pow_right (by decide) short
    have one_le : 1 ≤ 2 ^ holes := Nat.one_le_two_pow
    have value : ((1 : UInt32) <<< UInt32.ofNat holes).toNat = 2 ^ holes := by
      rw [UInt32.toNat_shiftLeft, toNat_ofNat_places short, UInt32.toNat_one, Nat.one_shiftLeft,
        Nat.mod_eq_of_lt power]
    rw [UInt32.toNat_sub_of_le _ _ (UInt32.le_iff_toNat_le.2 (by rwa [value, UInt32.toNat_one])),
      value, UInt32.toNat_one]
  case isFalse long =>
    obtain rfl : holes = 32 := by omega
    rfl

theorem bit_mask {holes : ℕ} (h : holes ≤ 32) (i : ℕ) :
    bit (mask holes) i = decide (i < holes) := by
  rw [bit, toNat_mask h, Nat.testBit_two_pow_sub_one]

theorem color?_of_lt (c : Packed) {i : ℕ} (h : i < 32) :
    c.color? i = some (shade (bit c.bits i)) := by
  rw [color?, shiftRight?, if_pos h, Option.map_some, Option.some.injEq]
  have low : ((c.bits >>> UInt32.ofNat i) &&& 1).toNat = (bit c.bits i).toNat := by
    rw [UInt32.toNat_and, UInt32.toNat_one, Nat.and_one_is_mod, UInt32.toNat_shiftRight,
      toNat_ofNat_places h, bit, Nat.testBit_eq_decide_div_mod_eq, Nat.shiftRight_eq_div_pow]
    rcases Nat.mod_two_eq_zero_or_one (c.bits.toNat / 2 ^ i) with zero | one
    · simp [zero]
    · simp [one]
  apply UInt8.toNat_inj.1
  rw [UInt32.toNat_toUInt8, low]
  cases bit c.bits i <;> rfl

theorem color?_eq_none (c : Packed) {i : ℕ} (h : 32 ≤ i) : c.color? i = none := by
  rw [color?, shiftRight?, if_neg (Nat.not_lt.2 h), Option.map_none]

instance : Readable Packed where
  color? := color?
  entry word place := shade (bit word place)

theorem length_words {holes : ℕ} (h : holes ≤ 32) : (words holes).length = 2 ^ holes := by
  have one_le : 1 ≤ 2 ^ holes := Nat.one_le_two_pow
  rw [words, List.length_map, List.length_range, toNat_mask h]
  omega

theorem mem_words {holes : ℕ} (h : holes ≤ 32) {word : UInt32} :
    word ∈ words holes ↔ word.toNat < 2 ^ holes := by
  have one_le : 1 ≤ 2 ^ holes := Nat.one_le_two_pow
  have power : 2 ^ holes ≤ 2 ^ 32 := Nat.pow_le_pow_right (by decide) h
  simp only [words, toNat_mask h, List.mem_map, List.mem_range]
  constructor
  · rintro ⟨n, bounded, rfl⟩
    rw [UInt32.toNat_ofNat_of_lt' (by simp only [UInt32.size]; omega)]
    omega
  · intro bounded
    exact ⟨word.toNat, by omega, UInt32.ofNat_toNat⟩

/-- The words of a ring have no bits beyond it. -/
theorem mem_words_iff_bit {holes : ℕ} (h : holes ≤ 32) {word : UInt32} :
    word ∈ words holes ↔ ∀ i, holes ≤ i → bit word i = false := by
  rw [mem_words h]
  constructor
  · intro bounded i beyond
    exact Nat.testBit_lt_two_pow (bounded.trans_le (Nat.pow_le_pow_right (by decide) beyond))
  · exact Nat.lt_pow_two_of_testBit _

/-- Words of a ring are told apart by the bits of its holes. -/
theorem eq_of_bit_eq_inside {holes : ℕ} (h : holes ≤ 32) {a b : UInt32} (ha : a ∈ words holes)
    (hb : b ∈ words holes) (agree : ∀ i < holes, bit a i = bit b i) : a = b := by
  refine eq_of_bit_eq fun i _ => ?_
  by_cases hi : i < holes
  · exact agree i hi
  · rw [(mem_words_iff_bit h).1 ha i (Nat.le_of_not_lt hi),
      (mem_words_iff_bit h).1 hb i (Nat.le_of_not_lt hi)]

theorem mem_all {holes colors : ℕ} {c : Packed} :
    c ∈ (Coloring.all holes colors : List Packed) ↔ c.bits ∈ words holes := by
  cases c
  simp [Coloring.all]

/-- There is a word with any given bits. -/
theorem exists_word {holes : ℕ} (h : holes ≤ 32) (f : ℕ → Bool) :
    ∃ word ∈ words holes, ∀ i < holes, bit word i = f i := by
  induction holes with
  | zero => exact ⟨0, (mem_words h).2 (by decide), nofun⟩
  | succ holes ih =>
    obtain ⟨word, member, agree⟩ := ih (by omega)
    rw [mem_words_iff_bit (by omega)] at member
    let top : UInt32 := if f holes then 1 <<< UInt32.ofNat holes else 0
    have bit_top (i : ℕ) (hi : i < 32) : bit top i = (decide (i = holes) && f holes) := by
      by_cases set : f holes
      · rw [show top = 1 <<< UInt32.ofNat holes from if_pos set, bit_single (by omega) hi, set,
          Bool.and_true]
      · rw [show top = 0 from if_neg set, bit_zero]
        simp [set]
    refine ⟨word ||| top, (mem_words_iff_bit h).2 fun i beyond => ?_, fun i hi => ?_⟩
    · by_cases inside : i < 32
      · rw [bit_or, member i (by omega), bit_top i inside]
        simp [show i ≠ holes by omega]
      · exact bit_of_le _ (by omega)
    · rw [bit_or, bit_top i (by omega)]
      by_cases last : i = holes
      · simp [last, member holes le_rfl]
      · simp [last, agree i (by omega)]

theorem color?_eq_iff {c d : Packed} {i j : ℕ} (hi : i < 32) (hj : j < 32) :
    c.color? i = d.color? j ↔ bit c.bits i = bit d.bits j := by
  rw [color?_of_lt c hi, color?_of_lt d hj, Option.some.injEq, shade_inj]

/-- Full turns do nothing. -/
theorem rotate?_mod (c : Packed) (amount holes : ℕ) :
    c.rotate? (amount % holes) holes = c.rotate? amount holes := by
  simp [rotate?]

theorem rotate?_eq_some {c : Packed} {holes amount : ℕ} (h : holes ≤ 32)
    (hc : c.bits ∈ words holes) (bounded : amount < holes) :
    ∃ d : Packed, c.rotate? amount holes = some d ∧ d.bits ∈ words holes ∧
      ∀ i < holes, bit d.bits i = bit c.bits ((i + (holes - amount)) % holes) := by
  have positive : holes ≠ 0 := by omega
  have turn : amount % holes = amount := Nat.mod_eq_of_lt bounded
  have beyond := (mem_words_iff_bit h).1 hc
  by_cases still : amount = 0
  · subst still
    refine ⟨c, by simp [rotate?], hc, fun i hi => ?_⟩
    rw [Nat.sub_zero, Nat.add_mod_right, Nat.mod_eq_of_lt hi]
  · have up : amount < 32 := by omega
    have down : holes - amount < 32 := by omega
    have shifted : c.rotate? amount holes = some ⟨mask holes &&&
        (c.bits <<< UInt32.ofNat amount ||| c.bits >>> UInt32.ofNat (holes - amount))⟩ := by
      rw [rotate?, if_neg positive, turn, if_neg still, shiftLeft?, if_pos up, shiftRight?,
        if_pos down]
      rfl
    refine ⟨_, shifted, ?_, fun i hi => ?_⟩
    · refine (mem_words_iff_bit h).2 fun i outside => ?_
      rw [bit_and, bit_mask h]
      simp [Nat.not_lt.2 outside]
    · rw [bit_and, bit_mask h, bit_or, bit_shiftLeft _ up (by omega), bit_shiftRight _ down]
      by_cases wrapped : i < amount
      · have here : (i + (holes - amount)) % holes = holes - amount + i := by
          rw [Nat.mod_eq_of_lt (by omega), Nat.add_comm]
        simp [hi, here, Nat.not_le.2 wrapped]
      · have here : (i + (holes - amount)) % holes = i - amount := by
          rw [Nat.mod_eq_sub_mod (by omega), Nat.mod_eq_of_lt (by omega)]
          omega
        have above := beyond (holes - amount + i) (by omega)
        simp [hi, here, above, Nat.le_of_not_lt wrapped]

/-- The test whether a bit is set. -/
theorem and_single_ne_zero {word : UInt32} {place : ℕ} (h : place < 32) :
    word &&& (1 <<< UInt32.ofNat place) ≠ 0 ↔ bit word place := by
  constructor
  · intro nonzero
    by_contra unset
    refine nonzero (eq_of_bit_eq fun i hi => ?_)
    rw [bit_and, bit_single h hi, bit_zero]
    by_cases here : i = place
    · simpa [here] using unset
    · simp [here]
  · intro set zero
    have read := congrArg (bit · place) zero
    simp only [bit_and, bit_single h h, bit_zero, set] at read
    simp at read

theorem write?_eq_some (bits word : UInt32) {hole place : ℕ} (h : hole < 32) (hp : place < 32) :
    ∃ written, write? bits word hole place = some written ∧
      ∀ i < 32, bit written i = if i = hole then bit word place else bit bits i := by
  have shifted : write? bits word hole place =
      some (if word &&& (1 <<< UInt32.ofNat place) ≠ 0 then bits ||| (1 <<< UInt32.ofNat hole)
        else bits &&& ~~~(1 <<< UInt32.ofNat hole)) := by
    simp only [write?, shiftLeft?, if_pos h, if_pos hp]
    rfl
  refine ⟨_, shifted, fun i hi => ?_⟩
  simp only [and_single_ne_zero hp]
  split
  case isTrue set =>
    rw [bit_or, bit_single h hi]
    by_cases here : i = hole
    · simp [here, set]
    · simp [here]
  case isFalse unset =>
    rw [bit_and, bit_not _ hi, bit_single h hi]
    by_cases here : i = hole
    · simpa [here] using unset
    · simp [here]

/-- The writes of a recoloring of a hand with at most as many holes as a word has bits. -/
theorem recolor?_eq_some (c : Packed) {hand : Hand} (word : UInt32)
    (inside : ∀ x ∈ hand.holes, x.toNat < 32) (short : hand.size ≤ 32) :
    ∃ d : Packed, c.recolor? hand word = some d ∧
      (∀ i : ℕ, (∀ x ∈ hand.holes, x.toNat ≠ i) → d.color? i = c.color? i) ∧
      ∀ x ∈ hand.holes, ∃ place : ℕ, hand.holes[place]? = some x ∧
        d.color? x.toNat = some (shade (bit word place)) := by
  have place_lt {cell : UInt8 × ℕ} (member : cell ∈ hand.holes.zipIdx) : cell.2 < 32 := by
    have held := List.mem_zipIdx_iff_getElem?.1 member
    exact (List.getElem?_eq_some_iff.1 held).1.trans_le short
  have hole_lt {cell : UInt8 × ℕ} (member : cell ∈ hand.holes.zipIdx) : cell.1.toNat < 32 :=
    inside _ (List.mem_of_getElem? (List.mem_zipIdx_iff_getElem?.1 member))
  have step (bits : UInt32) (cell : UInt8 × ℕ) (member : cell ∈ hand.holes.zipIdx)
      (_ : ((mk bits).color? cell.1.toNat).isSome) :
      ∃ written, write? bits word cell.1.toNat cell.2 = some written ∧ ∀ i, (mk written).color? i =
        if i = cell.1.toNat then some (shade (bit word cell.2)) else (mk bits).color? i := by
    obtain ⟨written, run, bits_of⟩ := write?_eq_some bits word (hole_lt member) (place_lt member)
    refine ⟨written, run, fun i => ?_⟩
    by_cases low : i < 32
    · rw [color?_of_lt _ low, color?_of_lt _ low, bits_of i low]
      split <;> rfl
    · have high := Nat.le_of_not_lt low
      have := hole_lt member
      rw [color?_eq_none _ high, color?_eq_none _ high, if_neg (by omega)]
  obtain ⟨written, run, kept, changed⟩ := Coloring.foldlM_writes (fun bits i => (mk bits).color? i)
    (fun cell : UInt8 × ℕ => cell.1.toNat) (fun cell => shade (bit word cell.2)) step c.bits
    fun cell member => by simp [color?_of_lt _ (hole_lt member)]
  refine ⟨⟨written⟩, by rw [recolor?, run]; rfl, fun i free => ?_, fun x hx => ?_⟩
  · refine kept i fun cell member => free cell.1 ?_
    exact List.mem_of_getElem? (List.mem_zipIdx_iff_getElem?.1 member)
  · obtain ⟨first, held⟩ := List.mem_iff_getElem?.1 hx
    obtain ⟨last, member, same, shown⟩ := changed (x, first) (List.mem_zipIdx_iff_getElem?.2 held)
    exact ⟨last.2, by rw [List.mem_zipIdx_iff_getElem?.1 member, UInt8.toNat_inj.1 same], shown⟩

/-- A recoloring of holes of the ring sets no bits beyond it. -/
theorem recolor?_mem_words {holes : ℕ} (h : holes ≤ 32) {c d : Packed} (hc : c.bits ∈ words holes)
    {hand : Hand} (inside : ∀ x ∈ hand.holes, x.toNat < holes) (short : hand.size ≤ 32)
    {word : UInt32} (run : c.recolor? hand word = some d) : d.bits ∈ words holes := by
  obtain ⟨e, run', kept, -⟩ :=
    recolor?_eq_some c word (fun x held => (inside x held).trans_le h) short
  obtain rfl := Option.some.inj (run.symm.trans run')
  refine (mem_words_iff_bit h).2 fun i beyond => ?_
  by_cases low : i < 32
  · have same := kept i fun x held => ((inside x held).trans_le beyond).ne
    rw [color?_eq_iff low low] at same
    rw [same, (mem_words_iff_bit h).1 hc i beyond]
  · exact bit_of_le _ (Nat.le_of_not_lt low)

theorem recolor_lawful {holes colors : ℕ} (h : holes ≤ 32) {c : Packed}
    (hc : c ∈ (Coloring.all holes colors : List Packed)) {hand : Hand} {size : ℕ}
    (inside : ∀ x ∈ hand.holes, x.toNat < holes) (fits : hand.size ≤ size) (le : size ≤ holes)
    (word : UInt32) :
    ∃ d ∈ (Coloring.all holes colors : List Packed), c.recolor? hand word = some d ∧
      Coloring.Recolored c d hand (Readable.entry (C := Packed) word) holes := by
  have short := fits.trans (le.trans h)
  obtain ⟨d, run, kept, changed⟩ := recolor?_eq_some c word
    (fun x held => (inside x held).trans_le h) short
  have member := recolor?_mem_words h (mem_all.1 hc) inside short run
  refine ⟨d, mem_all.2 member, run, ⟨fun i _ free => kept i fun x held same => free ?_, changed⟩⟩
  rwa [← same, UInt8.ofNat_toNat]

/-- A hand with more holes than a word has bits cannot be recolored: its last hole has no bit. -/
theorem recolor?_eq_none (c : Packed) {hand : Hand} (long : 32 < hand.size) (word : UInt32) :
    c.recolor? hand word = none := by
  have member : (hand.holes[32], 32) ∈ hand.holes.zipIdx :=
    List.mem_zipIdx_iff_getElem?.2 (List.getElem?_eq_getElem long)
  rw [recolor?, Traversal.foldlM_eq_none member fun bits => rfl, Option.map_none]

theorem isUniform_iff {holes : ℕ} (h : holes ≤ 32) {c : Packed} (hc : c.bits ∈ words holes) :
    c.isUniform holes ↔ ∀ i < holes, ∀ j < holes, bit c.bits i = bit c.bits j := by
  rw [isUniform, Bool.or_eq_true, beq_iff_eq, beq_iff_eq]
  constructor
  · rintro (zero | full) i hi j hj
    · rw [zero, bit_zero, bit_zero]
    · rw [full, bit_mask h, bit_mask h, decide_eq_true hi, decide_eq_true hj]
  · intro agree
    -- Hole 0 decides which of the two words it is.
    cases color : bit c.bits 0 with
    | false =>
      have zero : 0 ∈ words holes := (mem_words_iff_bit h).2 fun i _ => bit_zero i
      refine Or.inl (eq_of_bit_eq_inside h hc zero fun i hi => ?_)
      rw [agree i hi 0 (by omega), color, bit_zero]
    | true =>
      have full : mask holes ∈ words holes := (mem_words_iff_bit h).2 fun i beyond => by
        rw [bit_mask h, decide_eq_false (Nat.not_lt.2 beyond)]
      refine Or.inr (eq_of_bit_eq_inside h hc full fun i hi => ?_)
      rw [bit_mask h, agree i hi 0 (by omega), color, decide_eq_true hi]

theorem lawful {holes : ℕ} (h : holes ≤ 32) : Coloring.Lawful Packed holes 2 where
  length_all := by
    rw [← length_words h]
    exact List.length_map ..
  proper c _ i hi := by
    refine ⟨_, color?_of_lt c (by omega), ?_⟩
    cases bit c.bits i <;> decide
  ext c hc d hd agree := by
    have same := eq_of_bit_eq_inside h (mem_all.1 hc) (mem_all.1 hd) fun i hi =>
      (color?_eq_iff (hi.trans_le h) (hi.trans_le h)).1 (agree i hi)
    cases c
    cases d
    exact congrArg mk same
  paint shown proper := by
    obtain ⟨word, member, agree⟩ := exists_word h fun i => shown i = 1
    refine ⟨⟨word⟩, mem_all.2 member, fun i hi => ?_⟩
    exact (color?_of_lt _ (by omega)).trans
      (congrArg some (shade_of_lt_two (proper i hi) (agree i hi)))
  rotate c hc amount bounded := by
    obtain ⟨d, turned, member, carried⟩ := rotate?_eq_some h (mem_all.1 hc) bounded
    refine ⟨d, mem_all.2 member, turned, fun i hi => ?_⟩
    have before : (i + (holes - amount)) % holes < holes := Nat.mod_lt _ (by omega)
    exact (color?_eq_iff (by omega) (by omega)).2 (carried i hi)
  recolor c hc hand size inside fits le word _ := recolor_lawful h hc inside fits le word
  entries size le shown proper := by
    obtain ⟨word, member, agree⟩ := exists_word (le.trans h) fun place => shown place = 1
    exact ⟨word, member, fun place bounded =>
      shade_of_lt_two (proper place bounded) (agree place bounded)⟩
  isUniform_iff c hc := by
    refine (isUniform_iff h (mem_all.1 hc)).trans ?_
    refine forall₂_congr fun i hi => forall₂_congr fun j hj => ?_
    exact (color?_eq_iff (by omega) (by omega)).symm

/-- The colors of a word, hole by hole. -/
def shades (holes : ℕ) (word : UInt32) : List UInt8 :=
  (List.range holes).map fun i => shade (bit word i)

theorem toListed?_eq {holes : ℕ} (h : holes ≤ 32) (c : Packed) :
    c.toListed? holes = some ⟨shades holes c.bits⟩ := by
  have reads : (List.range holes).mapM c.color? = some (shades holes c.bits) :=
    Traversal.mapM_eq_some_map fun i member =>
      color?_of_lt c ((List.mem_range.1 member).trans_le h)
  rw [toListed?, if_pos h, reads]
  rfl

@[simp] theorem length_shades (holes : ℕ) (word : UInt32) : (shades holes word).length = holes := by
  simp [shades]

theorem shades_getElem? {holes i : ℕ} (hi : i < holes) (word : UInt32) :
    (shades holes word)[i]? = some (shade (bit word i)) := by
  simp [shades, hi]

/-- A packed coloring as a list shows the same color at every hole of the ring. -/
theorem exists_toListed? {holes : ℕ} (h : holes ≤ 32) (c : Packed) :
    ∃ t : Listed, c.toListed? holes = some t ∧ t.colors.length = holes ∧
      ∀ i < holes, t.colors[i]? = c.color? i := by
  refine ⟨_, toListed?_eq h c, length_shades .., fun i hi => ?_⟩
  rw [shades_getElem? hi, color?_of_lt c (by omega)]

end RingLock.Packed
