import RingLock.Proofs.Coloring.Views
import RingLock.Proofs.Coloring.Wheel
import RingLock.Proofs.Ring.Steps

/-!
# Turns of rings

A word of bits, a list of colors and a live ring are wheels. For a list, a turn is the rotation of
the list, and a write commutes with it. The other two are seen as lists: a word through its bits, and
a live ring, whose palette stays as it is, through its colors.
-/
namespace RingLock

namespace Listed

/-- The rings of so many holes, with any colors. -/
def wheel (holes : ℕ) : Wheel Listed (List UInt8) where
  holes := holes
  IsRing c := c.colors.length = holes
  color? c hole := c.colors[hole]?
  rotate? c amount := c.rotate? amount holes
  recolor? := recolor?
  Fits _ := True
  isUniform c := Coloring.isUniform c holes

variable {holes : ℕ}

/-- Two turns are one turn by the sum of the amounts. -/
theorem carry_carry {colors : List UInt8} (long : colors.length = holes) (a b : ℕ) :
    carry holes b (carry holes a colors) =
      carry holes ((a % holes + b % holes) % holes) colors := by
  by_cases empty : holes = 0
  · rw [empty] at long
    simp [carry, List.length_eq_zero_iff.1 long]
  have before := Nat.mod_lt a (Nat.pos_of_ne_zero empty)
  have before' := Nat.mod_lt b (Nat.pos_of_ne_zero empty)
  rw [carry, carry, carry, List.rotate_rotate, Nat.mod_mod]
  by_cases short : a % holes + b % holes < holes
  · -- Together they lack two full turns, of which one does nothing.
    have lacks : holes - a % holes + (holes - b % holes) =
        holes - (a % holes + b % holes) + colors.length := by omega
    rw [Nat.mod_eq_of_lt short, lacks, ← List.rotate_rotate, ← List.length_rotate colors,
      List.rotate_length]
  · have rest : a % holes + b % holes - holes < holes := by omega
    have lacks : holes - a % holes + (holes - b % holes) =
        holes - (a % holes + b % holes - holes) := by omega
    rw [Nat.mod_eq_sub_mod (Nat.le_of_not_lt short), Nat.mod_eq_of_lt rest, lacks]

/-- A color can be written before the turn, or after it where its hole has come to. -/
theorem carry_set {colors : List UInt8} (long : colors.length = holes) (amount : ℕ) {hole : ℕ}
    (inside : hole < holes) (color : UInt8) : carry holes amount (colors.set hole color) =
      (carry holes amount colors).set ((hole + amount) % holes) color := by
  refine List.ext_getElem? fun i => ?_
  by_cases hi : i < holes
  · have here : hole = (i + (holes - amount % holes)) % holes ↔ (hole + amount) % holes = i := by
      constructor
      · rintro rfl
        exact Wheel.back_forth hi amount
      · rintro rfl
        exact (Wheel.forth_back inside amount).symm
    have from_lt : (i + (holes - amount % holes)) % holes < holes := Nat.mod_lt _ (by omega)
    rw [getElem?_carry (by rwa [List.length_set]) amount hi, List.getElem?_set, List.getElem?_set,
      length_carry, long, getElem?_carry long amount hi]
    by_cases same : (hole + amount) % holes = i
    · rw [if_pos same, if_pos (here.2 same), if_pos inside, if_pos (same ▸ hi)]
    · rw [if_neg same, if_neg (mt here.1 same)]
  · rw [List.getElem?_eq_none (by simp; omega), List.getElem?_eq_none (by simp; omega)]

/-- The recoloring of a turned list in the places that the holes of the hand have come to. -/
theorem recolor?_carry {colors : List UInt8} (long : colors.length = holes) (amount : ℕ)
    {hand : Hand} (inside : hand.Inside holes) (bytes : hand.CanAdvance holes amount)
    (paint : List UInt8) : ∃ d : Listed, d.colors.length = holes ∧
      recolor? ⟨colors⟩ hand paint = some d ∧
      recolor? ⟨carry holes amount colors⟩ (hand.advance holes amount) paint =
        some ⟨carry holes amount d.colors⟩ := by
  have step (shown turned : List UInt8)
      (related : shown.length = holes ∧ turned = carry holes amount shown)
      (cell : UInt8 × UInt8) (member : cell ∈ hand.holes.zip paint) : ∃ next next',
        write? shown cell.1.toNat cell.2 = some next ∧
        write? turned (UInt8.ofNat ((cell.1.toNat + amount) % holes)).toNat cell.2 = some next' ∧
        next.length = holes ∧ next' = carry holes amount next := by
    obtain ⟨long, rfl⟩ := related
    have held := (List.of_mem_zip member).1
    have here := inside _ held
    have there : (cell.1.toNat + amount) % holes < holes := Nat.mod_lt _ (by omega)
    refine ⟨shown.set cell.1.toNat cell.2, _, if_pos (long ▸ here), ?_,
      List.length_set.trans long, rfl⟩
    rw [UInt8.toNat_ofNat_of_lt' (bytes _ held), write?,
      if_pos (by rwa [length_carry, long]), carry_set long amount here]
  obtain ⟨shown, turned, run, run', long', rfl⟩ :=
    Traversal.foldlM_related step (s := colors) ⟨long, rfl⟩
  refine ⟨⟨shown⟩, long', by rw [recolor?, run]; rfl, ?_⟩
  rw [recolor?, Hand.advance, List.zip_map_left, List.foldlM_map]
  exact congrArg (Option.map mk) run'

theorem turns (holes : ℕ) : (wheel holes).Turns where
  carries c long amount := by
    refine ⟨_, rotate?_eq_carry long amount, (length_carry ..).trans long, fun hole inside => ?_⟩
    exact getElem?_carry_forth long amount inside
  adds c long a b := by
    have second := rotate?_eq_carry (c := ⟨carry holes a c.colors⟩)
      ((length_carry ..).trans long) b
    have once := rotate?_eq_carry long ((a % holes + b % holes) % holes)
    change (c.rotate? a holes).bind (·.rotate? b holes) = c.rotate? _ holes
    rw [rotate?_eq_carry long, Option.bind_some, second, carry_carry long]
    exact once.symm
  recolors c long hand inside _ paint := by
    have bytes : hand.CanAdvance holes 0 := fun x _ => (Nat.mod_le ..).trans_lt x.toNat_lt
    obtain ⟨d, long', run, -⟩ := recolor?_carry long 0 inside bytes paint
    exact ⟨d, run, long'⟩
  commutes c long hand inside amount bytes paint := by
    obtain ⟨d, long', run, run'⟩ := recolor?_carry long amount inside bytes paint
    change (c.recolor? hand paint).bind (·.rotate? amount holes) =
      (c.rotate? amount holes).bind (·.recolor? (hand.advance holes amount) paint)
    rw [run, Option.bind_some, rotate?_eq_carry long', rotate?_eq_carry long, Option.bind_some,
      run']

theorem tests (holes : ℕ) : (wheel holes).Tests :=
  (turns holes).tests fun c long => by
    have agree := neighboursAgree_iff c.colors
    rw [show c.colors.length = holes from long] at agree
    exact agree

end Listed

namespace Packed

/-- The rings of so many holes, one bit a hole. A word has a bit for each of 32 places in a hand. -/
def wheel (holes : ℕ) : Wheel Packed UInt32 where
  holes := holes
  IsRing c := c.bits.toNat < 2 ^ holes
  color? := color?
  rotate? c amount := c.rotate? amount holes
  recolor? := recolor?
  Fits size := size ≤ 32
  isUniform c := c.isUniform holes

variable {holes : ℕ}

theorem shades_inj (h : holes ≤ 32) {a b : UInt32} (ha : a ∈ words holes) (hb : b ∈ words holes)
    (same : shades holes a = shades holes b) : a = b := by
  refine eq_of_bit_eq_inside h ha hb fun i hi => ?_
  have shown := congrArg (·[i]?) same
  simp only [shades_getElem? hi, Option.some.injEq] at shown
  exact shade_inj.1 shown

theorem seenAs (h : holes ≤ 32) : (wheel holes).SeenAs (Listed.wheel holes)
    (fun c => ⟨shades holes c.bits⟩) shades where
  holes := rfl
  ring c _ := length_shades ..
  injective c d bounded bounded' same := by
    have bits := shades_inj h ((mem_words h).2 bounded) ((mem_words h).2 bounded')
      (congrArg Listed.colors same)
    exact congrArg mk bits
  color c _ i hi := (shades_getElem? (show i < holes from hi) c.bits).trans
    (color?_of_lt c (hi.trans_le h)).symm
  rotate c bounded amount := by
    obtain ⟨d, packs, member, lists⟩ := shades_rotate? h ((mem_words h).2 bounded) amount
    exact ⟨d, packs, (mem_words h).1 member, lists⟩
  recolor c bounded hand inside short word := by
    obtain ⟨d, packs, lists⟩ := shades_recolor? h c short inside word
    have member := recolor?_mem_words h ((mem_words h).2 bounded) inside short packs
    exact ⟨d, packs, (mem_words h).1 member, lists⟩
  refuses c hand word long := recolor?_eq_none c (Nat.lt_of_not_le long) word

theorem turns (h : holes ≤ 32) : (wheel holes).Turns := (Listed.turns holes).of_seenAs (seenAs h)

theorem tests (h : holes ≤ 32) : (wheel holes).Tests :=
  (turns h).tests fun _ bounded =>
    (lawful h).isUniform_iff _ (mem_all.2 ((mem_words h).2 bounded))

end Packed

namespace Ring

/-- The live rings of so many holes with one palette. -/
def wheel (holes : ℕ) (palette : UInt8) : Wheel Ring (List UInt8) where
  holes := holes
  IsRing r := r.Sound ∧ r.size = holes ∧ r.palette = palette
  color? := color?
  rotate? r amount := some (r.rotate amount)
  recolor? := recolor?
  Fits _ := True
  isUniform := isWon

variable {holes : ℕ} {palette : UInt8}

theorem seenAs (holes : ℕ) (palette : UInt8) : (wheel holes palette).SeenAs (Listed.wheel holes)
    toListed (fun _ colors => colors.map (· % palette)) where
  holes := rfl
  ring _ ring := ring.2.1
  injective := by
    rintro ⟨colors, _⟩ ⟨colors', _⟩ ⟨-, -, rfl⟩ ⟨-, -, rfl⟩ same
    exact congrArg (mk · _) (congrArg Listed.colors same)
  color _ _ _ _ := rfl
  rotate r ring amount := by
    obtain ⟨sound, rfl, kept⟩ := ring
    exact ⟨_, rfl, ⟨sound.rotate amount, size_rotate .., kept⟩, toListed_rotate r amount⟩
  recolor r ring hand inside _ colors := by
    obtain ⟨sound, rfl, rfl⟩ := ring
    obtain ⟨q, run, lists⟩ :=
      toListed_recolor?_reduced r (UInt8.ne_of_lt sound.1).symm inside colors
    obtain ⟨q', run', kept⟩ := sound.recolor?_kept hand colors
    obtain rfl := Option.some.inj (run.symm.trans run')
    exact ⟨q, run, ⟨kept.sound, kept.size, kept.palette⟩, lists⟩
  refuses _ _ _ unfit := absurd trivial unfit

theorem turns (holes : ℕ) (palette : UInt8) : (wheel holes palette).Turns :=
  (Listed.turns holes).of_seenAs (seenAs holes palette)

theorem tests (holes : ℕ) (palette : UInt8) : (wheel holes palette).Tests := by
  refine (turns holes palette).tests fun r ring => ?_
  obtain ⟨-, rfl, -⟩ := ring
  exact Listed.neighboursAgree_iff r.colors

/-- A hole can be cycled before the turn, or after it where it has come to. -/
theorem cycle?_rotate {r : Ring} {hole : ℕ} (inside : hole < r.size) (amount : ℕ) :
    (r.rotate amount).cycle? ((hole + amount) % r.size) =
      (r.cycle? hole).map (·.rotate amount) := by
  have long : r.colors.length = r.size := rfl
  have shown : (Listed.carry r.size amount r.colors)[(hole + amount) % r.size]? =
      some r.colors[hole] := by
    rw [Listed.getElem?_carry_forth long amount inside]
    exact List.getElem?_eq_getElem inside
  rw [rotate_eq_carry, cycle?, cycle?, shown, List.getElem?_eq_getElem inside, Option.map_map]
  refine congrArg (Option.map · (successor? r.palette r.colors[hole])) (funext fun next => ?_)
  have written := Listed.carry_set long amount inside next
  simp only [Function.comp_apply, rotate_eq_carry, size, List.length_set] at written ⊢
  rw [written]

end Ring

namespace Wheel

/-- Words, lists and live rings turn alike, and a live ring can be cycled before or after a turn.
Hands can be moved on around every ring whose holes are bytes. -/
theorem every_form_turns :
    (∀ holes ≤ 32, (Packed.wheel holes).Turns) ∧
    (∀ holes, (Listed.wheel holes).Turns) ∧
    (∀ holes palette, (Ring.wheel holes palette).Turns ∧
      ∀ r, (Ring.wheel holes palette).IsRing r → ∀ hole < holes, ∀ amount,
        ∃ q, r.cycle? hole = some q ∧ (Ring.wheel holes palette).IsRing q ∧
          (r.rotate amount).cycle? ((hole + amount) % holes) = some (q.rotate amount)) ∧
    ∀ holes ≤ 256, ∀ hand : Hand, hand.Inside holes → ∀ amount, hand.CanAdvance holes amount := by
  refine ⟨fun _ => Packed.turns, Listed.turns, fun holes palette => ⟨Ring.turns .., ?_⟩, ?_⟩
  · rintro r ⟨sound, rfl, rfl⟩ hole inside amount
    obtain ⟨q, cycles, proper, advanced⟩ := sound.cycle?_eq_some inside
    refine ⟨q, cycles, ⟨proper, advanced.size, advanced.palette⟩, ?_⟩
    rw [Ring.cycle?_rotate inside, cycles, Option.map_some]
  · exact fun holes small hand inside amount => inside.canAdvance small amount

/-- A ring of 32 holes, a hand that holds its last hole twice, and more than a full turn. A live ring
whose last hole is cycled. -/
theorem turns_of_full_word : (Packed.wheel 32).Turns ∧
    (Packed.recolor? ⟨0x80000001⟩ ⟨[31, 0, 31]⟩ 0b011).bind (·.rotate? 33 32) =
      (Packed.rotate? ⟨0x80000001⟩ 33 32).bind (·.recolor? ⟨[0, 1, 0]⟩ 0b011) ∧
    ∃ q, Ring.cycle? ⟨[0, 1, 2], 3⟩ 2 = some q ∧
      (Ring.rotate ⟨[0, 1, 2], 3⟩ 4).cycle? 0 = some (q.rotate 4) := by
  obtain ⟨words, -, lives, -⟩ := every_form_turns
  have turns := words 32 (by decide)
  refine ⟨turns, ?_, ?_⟩
  · exact turns.commutes ⟨0x80000001⟩ (show _ < 2 ^ 32 by decide) ⟨[31, 0, 31]⟩ (by decide) 33
      (by decide) 0b011
  · obtain ⟨q, cycles, -, turned⟩ :=
      (lives 3 3).2 ⟨[0, 1, 2], 3⟩ ⟨⟨by decide, by simp⟩, rfl, rfl⟩ 2 (by decide) 4
    exact ⟨q, cycles, turned⟩

/-- In every form the test for a single color means just that, although it does not compare the last
hole with the first, and no turn changes its answer. -/
theorem every_form_tests :
    (∀ holes ≤ 32, (Packed.wheel holes).Tests) ∧ (∀ holes, (Listed.wheel holes).Tests) ∧
      ∀ holes palette, (Ring.wheel holes palette).Tests :=
  ⟨fun _ => Packed.tests, Listed.tests, Ring.tests⟩

/-- A ring of 32 holes of which one differs, after more than a full turn. -/
theorem tests_of_full_word : (Packed.wheel 32).Tests ∧
    ∃ d, Packed.rotate? ⟨0xfffffffe⟩ 40 32 = some d ∧ d.isUniform 32 = false := by
  have tests := every_form_tests.1 32 (by decide)
  refine ⟨tests, ?_⟩
  obtain ⟨d, turned, answer⟩ := tests.turned ⟨0xfffffffe⟩ (show _ < 2 ^ 32 by decide) 40
  exact ⟨d, turned, answer⟩

end Wheel

end RingLock
