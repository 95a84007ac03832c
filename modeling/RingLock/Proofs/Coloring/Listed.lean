import Mathlib.Algebra.BigOperators.Group.List.Basic
import Mathlib.Data.List.Rotate
import RingLock.Coloring.Listed
import RingLock.Proofs.Coloring.Lawful
import RingLock.Proofs.Coloring.Wheel

/-!
# Listed colorings are lawful

Lists of colors, for every size of the ring and every alphabet of fewer than 256 colors.
-/
namespace RingLock.Listed

instance : Readable Listed where
  color? c i := c.colors[i]?
  entry (r : List UInt8) place := r[place]?.getD 0

theorem color?_eq (c : Listed) (i : ℕ) : Readable.color? c i = c.colors[i]? := rfl

theorem entry_eq (r : List UInt8) (place : ℕ) :
    Readable.entry (C := Listed) r place = r[place]?.getD 0 := rfl

theorem length_tuples {colors : ℕ} (small : colors < 256) (length : ℕ) :
    (tuples colors length).length = colors ^ length := by
  induction length with
  | zero => rfl
  | succ length ih =>
    simp only [tuples_succ, List.length_flatMap, List.length_map, ih, Nat.mod_eq_of_lt small]
    rw [List.map_const', List.sum_replicate_nat, List.length_range, Nat.pow_succ, Nat.mul_comm]

/-- The enumeration lists exactly the lists of its length over its alphabet. -/
theorem mem_tuples {colors : ℕ} (small : colors < 256) {length : ℕ} {xs : List UInt8} :
    xs ∈ tuples colors length ↔ xs.length = length ∧ ∀ x ∈ xs, x.toNat < colors := by
  induction length generalizing xs with
  | zero =>
    rw [tuples_zero, List.mem_singleton]
    constructor
    · rintro rfl
      simp
    · rintro ⟨empty, -⟩
      exact List.length_eq_zero_iff.1 empty
  | succ length ih =>
    simp only [tuples_succ, List.mem_flatMap, List.mem_range, List.mem_map, ih,
      Nat.mod_eq_of_lt small]
    constructor
    · rintro ⟨color, bounded, ys, ⟨rfl, proper⟩, rfl⟩
      refine ⟨rfl, fun x hx => ?_⟩
      rcases List.mem_cons.1 hx with rfl | later
      · rwa [UInt8.toNat_ofNat_of_lt' (bounded.trans small)]
      · exact proper x later
    · rintro ⟨long, proper⟩
      obtain ⟨x, ys, rfl⟩ := List.exists_cons_of_length_eq_add_one long
      refine ⟨x.toNat, proper x List.mem_cons_self, ys, ⟨by simpa using long, ?_⟩, by simp⟩
      exact fun y hy => proper y (List.mem_cons_of_mem x hy)

theorem mem_all {holes colors : ℕ} (small : colors < 256) {c : Listed} :
    c ∈ (Coloring.all holes colors : List Listed) ↔
      c.colors.length = holes ∧ ∀ x ∈ c.colors, x.toNat < colors := by
  rw [← mem_tuples small]
  cases c
  simp [Coloring.all]

/-- What a list shows tells whether it is a coloring. -/
theorem mem_all_of_shown {holes colors : ℕ} (small : colors < 256) {c : Listed}
    (proper : ∀ i < holes, ∃ x, c.colors[i]? = some x ∧ x.toNat < colors)
    (none_beyond : c.colors[holes]? = none) :
    c ∈ (Coloring.all holes colors : List Listed) := by
  have long : c.colors.length = holes := by
    apply le_antisymm (List.getElem?_eq_none_iff.1 none_beyond)
    by_contra short
    obtain ⟨x, shown, -⟩ := proper c.colors.length (Nat.lt_of_not_le short)
    simp at shown
  refine (mem_all small).2 ⟨long, fun x hx => ?_⟩
  obtain ⟨i, hi, rfl⟩ := List.mem_iff_getElem.1 hx
  obtain ⟨y, shown, bounded⟩ := proper i (long ▸ hi)
  rw [List.getElem?_eq_getElem hi, Option.some.injEq] at shown
  rwa [shown]

/-- Full turns do nothing. -/
theorem rotate?_mod (c : Listed) (amount holes : ℕ) :
    c.rotate? (amount % holes) holes = c.rotate? amount holes := by
  simp [rotate?]

/-- The entries of a list, moved on around the ring by the amount. -/
def carry (holes amount : ℕ) (colors : List UInt8) : List UInt8 :=
  colors.rotate (holes - amount % holes)

@[simp] theorem length_carry (holes amount : ℕ) (colors : List UInt8) :
    (carry holes amount colors).length = colors.length := List.length_rotate ..

theorem getElem?_carry {colors : List UInt8} {holes : ℕ} (long : colors.length = holes)
    (amount : ℕ) {i : ℕ} (inside : i < holes) :
    (carry holes amount colors)[i]? = colors[(i + (holes - amount % holes)) % holes]? := by
  rw [carry, List.getElem?_rotate (by omega), long]

/-- Every entry is found again where the amount leads from its place. -/
theorem getElem?_carry_forth {colors : List UInt8} {holes : ℕ} (long : colors.length = holes)
    (amount : ℕ) {hole : ℕ} (inside : hole < holes) :
    (carry holes amount colors)[(hole + amount) % holes]? = colors[hole]? := by
  rw [getElem?_carry long amount (Nat.mod_lt _ (Nat.zero_lt_of_lt inside)),
    Wheel.forth_back inside]

theorem rotate?_eq_carry {c : Listed} {holes : ℕ} (long : c.colors.length = holes) (amount : ℕ) :
    c.rotate? amount holes = some ⟨carry holes amount c.colors⟩ := by
  by_cases empty : holes = 0
  · subst empty
    have none_left : c = ⟨[]⟩ := congrArg mk (List.length_eq_zero_iff.1 long)
    simp [none_left, carry]
  · have bounded : amount % holes ≤ c.colors.length :=
      long.symm ▸ (Nat.mod_lt amount (Nat.pos_of_ne_zero empty)).le
    rw [rotate?, if_neg empty, if_pos bounded, carry, ← long,
      List.rotate_eq_drop_append_take (Nat.sub_le ..)]

theorem rotate?_eq_some {c : Listed} {holes amount : ℕ} (long : c.colors.length = holes)
    (h : amount < holes) : ∃ d, c.rotate? amount holes = some d ∧ d.colors.Perm c.colors ∧
      ∀ i < holes, d.colors[i]? = c.colors[(i + (holes - amount)) % holes]? := by
  refine ⟨_, rotate?_eq_carry long amount, List.rotate_perm .., fun i hi => ?_⟩
  rw [getElem?_carry long amount hi, Nat.mod_eq_of_lt h]

theorem write?_eq_some {colors : List UInt8} {hole : ℕ} (color : UInt8)
    (there : (colors[hole]?).isSome) : ∃ written, write? colors hole color = some written ∧
      ∀ i : ℕ, written[i]? = if i = hole then some color else colors[i]? := by
  have inside : hole < colors.length := by simpa using there
  refine ⟨_, if_pos inside, fun i => ?_⟩
  rw [List.getElem?_set]
  by_cases same : hole = i
  · subst same
    simp [inside]
  · simp [same, Ne.symm same]

/-- The writes of a recoloring with a color for every hole of the hand. -/
theorem recolor?_eq_some {c : Listed} {hand : Hand} {r : List UInt8}
    (inside : ∀ x ∈ hand.holes, x.toNat < c.colors.length) (enough : hand.size ≤ r.length) :
    ∃ d, c.recolor? hand r = some d ∧
      (∀ i : ℕ, (∀ x ∈ hand.holes, x.toNat ≠ i) → d.colors[i]? = c.colors[i]?) ∧
      ∀ x ∈ hand.holes, ∃ place : ℕ, hand.holes[place]? = some x ∧
        ∃ color, r[place]? = some color ∧ d.colors[x.toNat]? = some color := by
  have there : ∀ cell ∈ hand.holes.zip r, (c.colors[cell.1.toNat]?).isSome := fun cell member => by
    simpa using inside cell.1 (List.of_mem_zip member).1
  obtain ⟨written, run, kept, changed⟩ := Coloring.foldlM_writes (fun colors i => colors[i]?)
    (fun cell : UInt8 × UInt8 => cell.1.toNat) Prod.snd (fun _ cell _ => write?_eq_some cell.2)
    c.colors there
  refine ⟨⟨written⟩, by rw [recolor?, run]; rfl, fun i free => ?_, fun x hx => ?_⟩
  · exact kept i fun cell member => free cell.1 (List.of_mem_zip member).1
  · obtain ⟨first, held⟩ := List.mem_iff_getElem?.1 hx
    have bounded : first < r.length := (List.getElem?_eq_some_iff.1 held).1.trans_le enough
    have cell : (x, r[first]) ∈ hand.holes.zip r :=
      List.mem_iff_getElem?.2 ⟨first, List.getElem?_zip_eq_some.2 ⟨held, by simp [bounded]⟩⟩
    obtain ⟨last, member, same, shown⟩ := changed _ cell
    obtain ⟨place, both⟩ := List.mem_iff_getElem?.1 member
    obtain ⟨hole, color⟩ := List.getElem?_zip_eq_some.1 both
    exact ⟨place, by rw [hole, UInt8.toNat_inj.1 same], last.2, color, shown⟩

theorem recolor_lawful {holes colors : ℕ} (small : colors < 256) {c : Listed}
    (hc : c ∈ (Coloring.all holes colors : List Listed)) {hand : Hand} {size : ℕ}
    (inside : ∀ x ∈ hand.holes, x.toNat < holes) (fits : hand.size ≤ size) {r : List UInt8}
    (hr : r ∈ tuples colors size) :
    ∃ d ∈ (Coloring.all holes colors : List Listed), c.recolor? hand r = some d ∧
      Coloring.Recolored c d hand (Readable.entry (C := Listed) r) holes := by
  obtain ⟨long, proper⟩ := (mem_all small).1 hc
  obtain ⟨full, proper_r⟩ := (mem_tuples small).1 hr
  obtain ⟨d, run, kept, changed⟩ :=
    recolor?_eq_some (r := r) (long.symm ▸ inside) (full.symm ▸ fits)
  refine ⟨d, mem_all_of_shown small (fun i hi => ?_) ?_, run, ⟨fun i _ free => ?_, fun x hx => ?_⟩⟩
  · by_cases written : ∃ x ∈ hand.holes, x.toNat = i
    · obtain ⟨x, held, rfl⟩ := written
      obtain ⟨place, -, color, read, shown⟩ := changed x held
      exact ⟨color, shown, proper_r _ (List.mem_of_getElem? read)⟩
    · push Not at written
      have there : i < c.colors.length := long.symm ▸ hi
      exact ⟨c.colors[i], by rw [kept i written]; simp [there], proper _ (List.getElem_mem there)⟩
  · rw [kept holes fun x held => (inside x held).ne]
    exact List.getElem?_eq_none long.le
  · refine kept i fun x held same => free ?_
    rwa [← same, UInt8.ofNat_toNat]
  · obtain ⟨place, held, color, read, shown⟩ := changed x hx
    exact ⟨place, held, by rw [entry_eq, read]; exact shown⟩

theorem eq_of_shown {holes colors : ℕ} (small : colors < 256) {c d : Listed}
    (hc : c ∈ (Coloring.all holes colors : List Listed))
    (hd : d ∈ (Coloring.all holes colors : List Listed))
    (agree : ∀ i < holes, c.colors[i]? = d.colors[i]?) : c = d := by
  have long := ((mem_all small).1 hc).1
  have long' := ((mem_all small).1 hd).1
  have same : c.colors = d.colors := by
    apply List.ext_getElem? fun i => ?_
    by_cases inside : i < holes
    · exact agree i inside
    · rw [List.getElem?_eq_none (by omega), List.getElem?_eq_none (by omega)]
  cases c
  cases d
  simpa using same

theorem proper_of_mem {holes colors : ℕ} (small : colors < 256) {c : Listed}
    (hc : c ∈ (Coloring.all holes colors : List Listed)) {i : ℕ} (hi : i < holes) :
    ∃ x, c.colors[i]? = some x ∧ x.toNat < colors := by
  obtain ⟨long, proper⟩ := (mem_all small).1 hc
  have inside : i < c.colors.length := long.symm ▸ hi
  exact ⟨c.colors[i], by simp [inside], proper _ (List.getElem_mem inside)⟩

theorem neighboursAgree_iff (xs : List UInt8) :
    neighboursAgree xs ↔ ∀ i < xs.length, ∀ j < xs.length, xs[i]? = xs[j]? := by
  cases xs with
  | nil => simp
  | cons a rest =>
    rw [neighboursAgree_cons]
    constructor
    · intro same
      have each : ∀ i < (a :: rest).length, (a :: rest)[i]? = some a := by
        intro i hi
        rw [List.getElem?_eq_getElem hi, Option.some.injEq]
        rcases List.mem_cons.1 (List.getElem_mem hi) with first | later
        · exact first
        · exact same _ later
      intro i hi j hj
      rw [each i hi, each j hj]
    · intro agree b hb
      obtain ⟨i, hi, rfl⟩ := List.mem_iff_getElem.1 hb
      simpa [hi] using agree (i + 1) (by simpa using hi) 0 (by simp)

theorem lawful {holes colors : ℕ} (small : colors < 256) : Coloring.Lawful Listed holes colors where
  length_all := by
    rw [← length_tuples small holes]
    exact List.length_map ..
  proper c hc i hi := proper_of_mem small hc hi
  ext c hc d hd agree := eq_of_shown small hc hd agree
  paint shown proper := by
    refine ⟨⟨(List.range holes).map shown⟩, (mem_all small).2 ⟨by simp, fun x hx => ?_⟩, ?_⟩
    · obtain ⟨i, hi, rfl⟩ := List.mem_map.1 hx
      exact proper i (List.mem_range.1 hi)
    · intro i hi
      simp [color?_eq, hi]
  rotate c hc amount bounded := by
    obtain ⟨long, proper⟩ := (mem_all small).1 hc
    obtain ⟨d, turned, perm, carried⟩ := rotate?_eq_some long bounded
    refine ⟨d, (mem_all small).2 ⟨perm.length_eq.trans long, fun x hx => ?_⟩, turned, carried⟩
    exact proper x (perm.mem_iff.1 hx)
  recolor c hc hand size inside fits _ r hr := recolor_lawful small hc inside fits hr
  entries size _ shown proper := by
    refine ⟨(List.range size).map shown, (mem_tuples small).2 ⟨by simp, fun x hx => ?_⟩, ?_⟩
    · obtain ⟨place, bounded, rfl⟩ := List.mem_map.1 hx
      exact proper place (List.mem_range.1 bounded)
    · intro place bounded
      simp [entry_eq, bounded]
  isUniform_iff c hc := by
    have long := ((mem_all small).1 hc).1
    have agree := neighboursAgree_iff c.colors
    rw [long] at agree
    exact agree

end RingLock.Listed
