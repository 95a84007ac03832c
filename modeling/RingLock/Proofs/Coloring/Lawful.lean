import Mathlib.Data.Fintype.Basic
import RingLock.Coloring.Basic
import RingLock.Proofs.Hand

/-!
# Lawful colorings

What a representation of colorings has to guarantee, hole by hole: it enumerates every assignment of
colors once, a turn carries every color along, a recoloring changes the holes of the hand alone and
gives each of them a color that it has for it, there are recolorings with any colors, and the test
for one color means just that.

Recoloring is a sequence of writes, one hole at a time. What such a sequence leaves behind is shown
here once for every representation.
-/
namespace RingLock

/-- Representations whose holes can be read, and the colors of a recoloring by place in the hand. -/
class Readable (C : Type) [Coloring C] where
  color? : C → ℕ → Option UInt8
  entry : Coloring.Recoloring C → ℕ → UInt8

namespace Coloring

open Readable

section

variable {C : Type} [Coloring C] [Readable C] {holes colors : ℕ}

/-- A coloring shows the colors of a ring. -/
def Shows (c : C) (ring : Fin holes → Fin colors) : Prop :=
  ∀ i : Fin holes, color? c i = some (UInt8.ofNat (ring i))

/-- What is left of a coloring when the holes of a hand were written. A hole that stands in the hand
twice shows one of its two colors. -/
structure Recolored (c d : C) (hand : Hand) (paint : ℕ → UInt8) (holes : ℕ) : Prop where
  kept : ∀ i < holes, UInt8.ofNat i ∉ hand.holes → color? d i = color? c i
  painted : ∀ x ∈ hand.holes, ∃ place : ℕ, hand.holes[place]? = some x ∧
    color? d x.toNat = some (paint place)

variable (C holes colors) in
/-- The guarantees of a representation for one size of the ring and one alphabet. -/
structure Lawful : Prop where
  length_all : (all holes colors : List C).length = colors ^ holes
  proper : ∀ c ∈ (all holes colors : List C), ∀ i < holes,
    ∃ x, color? c i = some x ∧ x.toNat < colors
  ext : ∀ c ∈ (all holes colors : List C), ∀ d ∈ (all holes colors : List C),
    (∀ i < holes, color? c i = color? d i) → c = d
  paint : ∀ shown : ℕ → UInt8, (∀ i < holes, (shown i).toNat < colors) →
    ∃ c ∈ (all holes colors : List C), ∀ i < holes, color? c i = some (shown i)
  rotate : ∀ c ∈ (all holes colors : List C), ∀ amount < holes,
    ∃ d ∈ (all holes colors : List C), rotate? c amount holes = some d ∧
      ∀ i < holes, color? d i = color? c ((i + (holes - amount)) % holes)
  recolor : ∀ c ∈ (all holes colors : List C), ∀ (hand : Hand) (size : ℕ),
    (∀ x ∈ hand.holes, x.toNat < holes) → hand.size ≤ size → size ≤ holes →
    ∀ r ∈ recolorings (C := C) size colors,
      ∃ d ∈ (all holes colors : List C), recolor? c hand r = some d ∧
        Recolored c d hand (entry r) holes
  entries : ∀ size ≤ holes, ∀ shown : ℕ → UInt8, (∀ place < size, (shown place).toNat < colors) →
    ∃ r ∈ recolorings (C := C) size colors, ∀ place < size, entry r place = shown place
  isUniform_iff : ∀ c ∈ (all holes colors : List C),
    isUniform c holes ↔ ∀ i < holes, ∀ j < holes, color? c i = color? c j

/-- A recoloring reaches every coloring that differs in the hand alone: the one that has, for each
place in the hand, the color that the target shows there. -/
theorem Lawful.reach_outside (lawful : Lawful C holes colors) {c d : C}
    (hc : c ∈ (all holes colors : List C)) (hd : d ∈ (all holes colors : List C)) {hand : Hand}
    {size : ℕ} (inside : ∀ x ∈ hand.holes, x.toNat < holes) (fits : hand.size ≤ size)
    (le : size ≤ holes) (outside : ∀ i < holes, (∀ x ∈ hand.holes, x.toNat ≠ i) →
      color? d i = color? c i ∧ ∀ e : C, ∀ r ∈ recolorings (C := C) size colors,
        recolor? c hand r = some e → color? e i = color? c i) :
    ∃ r ∈ recolorings (C := C) size colors, recolor? c hand r = some d := by
  let wanted (place : ℕ) : UInt8 := (hand.holes[place]?.bind fun x => color? d x.toNat).getD 0
  have wanted_eq {place : ℕ} {x : UInt8} (held : hand.holes[place]? = some x) :
      color? d x.toNat = some (wanted place) := by
    obtain ⟨y, shown, -⟩ := lawful.proper d hd _ (inside x (List.mem_of_getElem? held))
    simp [wanted, held, shown]
  have wanted_lt : ∀ place < size, (wanted place).toNat < colors := by
    intro place bounded
    cases held : hand.holes[place]? with
    | none =>
      obtain ⟨x, -, hx⟩ := lawful.proper d hd 0 (by omega)
      simpa [wanted, held] using (Nat.zero_le _).trans_lt hx
    | some x =>
      obtain ⟨y, shown, hy⟩ := lawful.proper d hd _ (inside x (List.mem_of_getElem? held))
      rw [wanted_eq held, Option.some.injEq] at shown
      exact shown ▸ hy
  obtain ⟨r, hr, reads⟩ := lawful.entries size le wanted wanted_lt
  obtain ⟨e, he, run, recolored⟩ := lawful.recolor c hc hand size inside fits le r hr
  refine ⟨r, hr, run.trans (congrArg some (lawful.ext e he d hd fun i hi => ?_))⟩
  by_cases held : ∃ x ∈ hand.holes, x.toNat = i
  · obtain ⟨x, held, rfl⟩ := held
    obtain ⟨place, here, shown⟩ := recolored.painted x held
    have bounded : place < size := (List.getElem?_eq_some_iff.1 here).1.trans_le fits
    rw [shown, wanted_eq here, reads place bounded]
  · push Not at held
    obtain ⟨kept, keeps⟩ := outside i hi held
    rw [keeps e r hr run, kept]

/-- On a ring whose holes are bytes, the holes outside the hand can be told by their bytes. -/
theorem Lawful.reach (lawful : Lawful C holes colors) (bytes : holes ≤ 256) {c d : C}
    (hc : c ∈ (all holes colors : List C)) (hd : d ∈ (all holes colors : List C)) {hand : Hand}
    {size : ℕ} (inside : ∀ x ∈ hand.holes, x.toNat < holes) (fits : hand.size ≤ size)
    (le : size ≤ holes)
    (agree : ∀ i < holes, UInt8.ofNat i ∉ hand.holes → color? d i = color? c i) :
    ∃ r ∈ recolorings (C := C) size colors, recolor? c hand r = some d := by
  refine lawful.reach_outside hc hd inside fits le fun i hi free => ?_
  have absent : UInt8.ofNat i ∉ hand.holes := fun held =>
    free _ held (Hand.toNat_ofNat_of_lt bytes hi)
  refine ⟨agree i hi absent, fun e r hr run => ?_⟩
  obtain ⟨e', -, run', recolored⟩ := lawful.recolor c hc hand size inside fits le r hr
  obtain rfl := Option.some.inj (run.symm.trans run')
  exact recolored.kept i hi absent

end

/-- A sequence of writes, each of one color into one hole that is there. It succeeds. What it does
not write stays, and what it writes ends up with the color of some write. -/
theorem foldlM_writes {S Cell : Type} {write : S → Cell → Option S} (view : S → ℕ → Option UInt8)
    (hole : Cell → ℕ) (color : Cell → UInt8) {cells : List Cell}
    (step : ∀ s, ∀ cell ∈ cells, (view s (hole cell)).isSome → ∃ t, write s cell = some t ∧
      ∀ i, view t i = if i = hole cell then some (color cell) else view s i)
    (s : S) (there : ∀ cell ∈ cells, (view s (hole cell)).isSome) :
    ∃ t, cells.foldlM write s = some t ∧
      (∀ i, (∀ cell ∈ cells, hole cell ≠ i) → view t i = view s i) ∧
      ∀ cell ∈ cells, ∃ last ∈ cells, hole last = hole cell ∧ view t (hole cell) = color last := by
  induction cells generalizing s with
  | nil => exact ⟨s, rfl, fun _ _ => rfl, nofun⟩
  | cons first cells ih =>
    obtain ⟨u, done, after⟩ := step s first List.mem_cons_self (there first List.mem_cons_self)
    have still : ∀ cell ∈ cells, (view u (hole cell)).isSome := by
      intro cell later
      rw [after]
      split
      · rfl
      · exact there cell (List.mem_cons_of_mem first later)
    obtain ⟨t, run, kept, written⟩ :=
      ih (fun s cell later => step s cell (List.mem_cons_of_mem first later)) u still
    have whole : (first :: cells).foldlM write s = some t := by
      rw [List.foldlM_cons, done]
      exact run
    refine ⟨t, whole, fun i untouched => ?_, fun cell member => ?_⟩
    · rw [kept i fun cell later => untouched cell (List.mem_cons_of_mem first later), after,
        if_neg (untouched first List.mem_cons_self).symm]
    · by_cases again : ∃ other ∈ cells, hole other = hole cell
      · obtain ⟨other, inside, same⟩ := again
        obtain ⟨last, later, at_other, shown⟩ := written other inside
        exact ⟨last, List.mem_cons_of_mem first later, at_other.trans same, same ▸ shown⟩
      · push Not at again
        obtain rfl : cell = first :=
          (List.mem_cons.1 member).resolve_right fun inside => again cell inside rfl
        exact ⟨cell, member, rfl, by rw [kept _ again, after, if_pos rfl]⟩

end Coloring

end RingLock
