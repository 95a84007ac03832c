import RingLock.Proofs.Coloring.Lawful
import RingLock.Proofs.Puzzle.Game

/-!
# Colorings as rings

Every coloring of a lawful representation shows a ring, and every ring is shown by some coloring.
What a turn and a recoloring make of a coloring shows what the player can make of its ring.
-/
namespace RingLock.Coloring

open Readable Puzzle

variable {C : Type} [Coloring C] [Readable C] {holes colors : ℕ}

/-- A turn by some amount and some recoloring of the hand make one coloring of another. -/
def Makes (c : C) (hand : Hand) (holes size colors amount : ℕ) (d : C) : Prop :=
  ∃ turned, rotate? c amount holes = some turned ∧
    ∃ r ∈ recolorings (C := C) size colors, recolor? turned hand r = some d

/-- All holes show one color. -/
def OneColor (c : C) (holes : ℕ) : Prop := ∀ i < holes, ∀ j < holes, color? c i = color? c j

/-- Outside the hand every hole shows the color that a turn by some amount brings there. -/
def Carried (c d : C) (hand : Hand) (holes amount : ℕ) : Prop :=
  ∀ i < holes, UInt8.ofNat i ∉ hand.holes →
    color? d i = color? c ((i + (holes - amount)) % holes)

instance (c : C) (holes : ℕ) : Decidable (OneColor c holes) :=
  inferInstanceAs (Decidable (∀ i < holes, ∀ j < holes, color? c i = color? c j))

instance (c d : C) (hand : Hand) (holes amount : ℕ) : Decidable (Carried c d hand holes amount) :=
  inferInstanceAs (Decidable (∀ i < holes, UInt8.ofNat i ∉ hand.holes →
    color? d i = color? c ((i + (holes - amount)) % holes)))

theorem ofNat_color_inj (bytes : colors ≤ 256) {x y : Fin colors}
    (h : UInt8.ofNat x = UInt8.ofNat y) : x = y := by
  have values := congrArg UInt8.toNat h
  rw [Hand.toNat_ofNat_of_lt bytes x.isLt, Hand.toNat_ofNat_of_lt bytes y.isLt] at values
  exact Fin.ext values

/-- A coloring shows one ring only. -/
theorem Shows.unique (bytes : colors ≤ 256) {c : C} {ring ring' : Fin holes → Fin colors}
    (shown : Shows c ring) (shown' : Shows c ring') : ring = ring' := by
  funext i
  exact ofNat_color_inj bytes (Option.some.inj ((shown i).symm.trans (shown' i)))

/-- What a turn by an amount brings to a hole. -/
theorem Shows.before {c : C} {ring : Fin holes → Fin colors} (shown : Shows c ring)
    (i amount : Fin holes) : color? c (((i : ℕ) + (holes - amount)) % holes) =
      some (UInt8.ofNat (ring (i - amount))) := by
  rw [← shown, Fin.val_sub, Nat.add_comm]

/-- What a turn brings to the holes outside the hand is what the player can make of the ring. -/
theorem Shows.carried_iff (bytes : colors ≤ 256) {c d : C} {ring next : Fin holes → Fin colors}
    (shown : Shows c ring) (shown' : Shows d next) (hand : Hand) (amount : Fin holes) :
    Carried c d hand holes amount ↔ Reaches ring (hand.set holes) amount next := by
  constructor
  · intro carried i free
    apply ofNat_color_inj bytes
    rw [← Option.some.injEq, ← shown' i, ← shown.before i]
    exact carried i i.isLt fun held => free (Hand.mem_set.2 held)
  · intro reaches i hi free
    rw [shown' ⟨i, hi⟩, shown.before ⟨i, hi⟩, reaches ⟨i, hi⟩ (by simpa using free)]

namespace Lawful

variable (lawful : Lawful C holes colors)
include lawful

theorem exists_ring {c : C} (hc : c ∈ (all holes colors : List C)) :
    ∃ ring : Fin holes → Fin colors, Shows c ring := by
  have proper (i : Fin holes) : ∃ x : Fin colors, color? c i = some (UInt8.ofNat x) := by
    obtain ⟨x, shown, bounded⟩ := lawful.proper c hc i i.isLt
    exact ⟨⟨x.toNat, bounded⟩, by simpa using shown⟩
  choose ring shown using proper
  exact ⟨ring, shown⟩

theorem exists_shown (bytes : colors ≤ 256) (ring : Fin holes → Fin colors) :
    ∃ c ∈ (all holes colors : List C), Shows c ring := by
  let painted (i : ℕ) : UInt8 := if h : i < holes then UInt8.ofNat (ring ⟨i, h⟩) else 0
  have inside : ∀ i < holes, (painted i).toNat < colors := by
    intro i h
    rw [show painted i = _ from dif_pos h, Hand.toNat_ofNat_of_lt bytes (Fin.isLt _)]
    exact Fin.isLt _
  obtain ⟨c, hc, shown⟩ := lawful.paint painted inside
  exact ⟨c, hc, fun i => (shown i i.isLt).trans (congrArg some (dif_pos i.isLt))⟩

theorem isUniform_iff_solved (bytes : colors ≤ 256) {c : C} (hc : c ∈ (all holes colors : List C))
    {ring : Fin holes → Fin colors} (shown : Shows c ring) : isUniform c holes ↔ Solved ring := by
  rw [lawful.isUniform_iff c hc]
  constructor
  · intro agree i j
    have same := agree i i.isLt j j.isLt
    rw [shown, shown, Option.some.injEq] at same
    exact ofNat_color_inj bytes same
  · intro solved i hi j hj
    rw [shown ⟨i, hi⟩, shown ⟨j, hj⟩, solved ⟨i, hi⟩ ⟨j, hj⟩]

/-- A turn and a recoloring of the hand make exactly the colorings that show, outside the hand, what
the turn brings there. -/
theorem makes_iff_carried (bytes : holes ≤ 256) {c d : C} (hc : c ∈ (all holes colors : List C))
    {hand : Hand} {size : ℕ} (inside : ∀ x ∈ hand.holes, x.toNat < holes) (fits : hand.size ≤ size)
    (le : size ≤ holes) {amount : ℕ} (bounded : amount < holes) :
    Makes c hand holes size colors amount d ↔
      d ∈ (all holes colors : List C) ∧ Carried c d hand holes amount := by
  obtain ⟨turned, member, run, brings⟩ := lawful.rotate c hc amount bounded
  constructor
  · rintro ⟨other, same, r, hr, made⟩
    obtain rfl : turned = other := Option.some.inj (run.symm.trans same)
    obtain ⟨e, he, recolors, recolored⟩ :=
      lawful.recolor turned member hand size inside fits le r hr
    obtain rfl : e = d := Option.some.inj (recolors.symm.trans made)
    exact ⟨he, fun i hi free => (recolored.kept i hi free).trans (brings i hi)⟩
  · rintro ⟨hd, carried⟩
    obtain ⟨r, hr, made⟩ := lawful.reach bytes member hd inside fits le fun i hi free =>
      (carried i hi free).trans (brings i hi).symm
    exact ⟨turned, run, r, hr, made⟩

/-- The colorings that a turn and a recoloring make are those whose rings the player can reach. -/
theorem makes_iff (bytes : holes ≤ 256) (bytes' : colors ≤ 256) {c d : C}
    (hc : c ∈ (all holes colors : List C)) {ring : Fin holes → Fin colors} (shown : Shows c ring)
    {hand : Hand} {size : ℕ} (inside : ∀ x ∈ hand.holes, x.toNat < holes) (fits : hand.size ≤ size)
    (le : size ≤ holes) (amount : Fin holes) :
    Makes c hand holes size colors amount d ↔ d ∈ (all holes colors : List C) ∧
      ∃ next, Shows d next ∧ Reaches ring (hand.set holes) amount next := by
  rw [lawful.makes_iff_carried bytes hc inside fits le amount.isLt]
  refine and_congr_right fun hd => ⟨fun carried => ?_, ?_⟩
  · obtain ⟨next, shows_next⟩ := lawful.exists_ring hd
    exact ⟨next, shows_next, (shown.carried_iff bytes' shows_next hand amount).1 carried⟩
  · rintro ⟨next, shows_next, reaches⟩
    exact (shown.carried_iff bytes' shows_next hand amount).2 reaches

end Lawful

end RingLock.Coloring
