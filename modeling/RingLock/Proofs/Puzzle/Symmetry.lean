import Mathlib.Algebra.Group.Fin.Basic
import RingLock.Proofs.Puzzle.Verdict

/-!
# Symmetries of the winning region

The player wins from a position if and only if the player wins from it with the ring turned, with
the hand shifted around the ring, and with the colors renamed. Ring and hand may be moved by
different amounts. A turn of the ring is made up for by the next rotation of the adversary, and a
shift of the hand by that rotation and a turn of the answer. So no induction is needed for either.
The winning region, which holds the lost positions, has the same symmetries in both models.
-/
namespace RingLock

namespace Puzzle

variable {holes colors size turns : ℕ} {ring : Fin holes → Fin colors}
  {pending : Finset (Fin holes)}

theorem Forces.turn [NeZero holes] (amount : Fin holes) (h : Forces size turns ring pending) :
    Forces size turns (fun i => ring (i - amount)) pending := by
  have turned (solved : Solved ring) : Solved fun i => ring (i - amount) := fun i j => solved _ _
  cases turns with
  | zero => exact turned h
  | succ turns =>
    rcases h with solved | answers
    · exact Or.inl (turned solved)
    · refine Or.inr fun other => ?_
      -- Both turns together are one rotation, which has an answer.
      obtain ⟨next, hand, reaches, full, forces⟩ := answers (other + amount)
      refine ⟨next, hand, fun i free => ?_, full, forces⟩
      rw [reaches i free, sub_add_eq_sub_sub]

theorem Forces.shift [NeZero holes] (amount : Fin holes) (h : Forces size turns ring pending) :
    Forces size turns ring (pending.image (· + amount)) := by
  cases turns with
  | zero => exact h
  | succ turns =>
    rcases h with solved | answers
    · exact Or.inl solved
    · refine Or.inr fun other => ?_
      -- Seen from the shifted hand, the ring has turned by that much less.
      obtain ⟨next, hand, reaches, full, forces⟩ := answers (other - amount)
      refine ⟨fun i => next (i - amount), hand, fun i free => ?_, full, forces.turn amount⟩
      have before : i - amount ∉ pending := fun held =>
        free (Finset.mem_image.2 ⟨_, held, sub_add_cancel i amount⟩)
      exact (reaches _ before).trans (congrArg ring (sub_sub_sub_cancel_right ..))

theorem forces_turn_iff [NeZero holes] (amount : Fin holes) :
    Forces size turns (fun i => ring (i - amount)) pending ↔ Forces size turns ring pending := by
  refine ⟨fun h => ?_, Forces.turn amount⟩
  simpa using h.turn (-amount)

theorem forces_shift_iff [NeZero holes] (amount : Fin holes) :
    Forces size turns ring (pending.image (· + amount)) ↔ Forces size turns ring pending := by
  refine ⟨fun h => ?_, Forces.shift amount⟩
  simpa only [Finset.image_image, Function.comp_def, add_neg_cancel_right, Finset.image_id']
    using h.shift (-amount)

theorem forces_map_iff (π : Equiv.Perm (Fin colors)) :
    Forces size turns (π ∘ ring) pending ↔ Forces size turns ring pending := by
  refine ⟨fun h => ?_, Forces.map π⟩
  simpa [← Function.comp_assoc] using h.map π.symm

end Puzzle

namespace Hand

/-- Every hole of a hand moved on around the ring, in increasing order again. -/
def shift (holes amount : ℕ) (h : Hand) : Hand :=
  ⟨(h.holes.map fun x => UInt8.ofNat ((x.toNat + amount) % holes)).mergeSort⟩

@[simp] theorem mem_shift {holes amount : ℕ} {h : Hand} {y : UInt8} :
    y ∈ (h.shift holes amount).holes ↔
      ∃ x ∈ h.holes, UInt8.ofNat ((x.toNat + amount) % holes) = y := by
  simp [shift]

@[simp] theorem shift_empty (holes amount : ℕ) : empty.shift holes amount = empty := by
  simp [shift, empty]

theorem Fills.shift {holes size : ℕ} (small : holes ≤ 256) {h : Hand} (fills : h.Fills holes size)
    (amount : ℕ) : (h.shift holes amount).Fills holes size := by
  have value {x : UInt8} (inside : x.toNat < holes) :
      (UInt8.ofNat ((x.toNat + amount) % holes)).toNat = (x.toNat + amount) % holes :=
    toNat_ofNat_of_lt small (Nat.mod_lt _ (by omega))
  rw [← fills.length, ← List.length_map (fun x : UInt8 => UInt8.ofNat ((x.toNat + amount) % holes))]
  apply fills_mergeSort
  · refine List.Nodup.map_on ?_ (fills.increasing.imp UInt8.ne_of_lt)
    intro x hx y hy same
    have below := fills.inside x hx
    have below' := fills.inside y hy
    have values : (x.toNat + amount) % holes = (y.toNat + amount) % holes := by
      rw [← value below, ← value below', same]
    have congruent : x.toNat % holes = y.toNat % holes := Nat.ModEq.add_right_cancel' amount values
    rw [Nat.mod_eq_of_lt below, Nat.mod_eq_of_lt below'] at congruent
    exact UInt8.toNat_inj.1 congruent
  · intro y hy
    obtain ⟨x, hx, rfl⟩ := List.mem_map.1 hy
    have below := fills.inside x hx
    rw [value below]
    exact Nat.mod_lt _ (by omega)

theorem shift_mem_options {holes size : ℕ} (small : holes ≤ 256) {h : Hand}
    (option : h ∈ options holes size) (amount : ℕ) : h.shift holes amount ∈ options holes size := by
  rw [mem_options_iff_fills small] at option ⊢
  rcases option with fills | rfl
  · exact Or.inl (fills.shift small amount)
  · exact Or.inr (shift_empty holes amount)

/-- As a set of holes, a shifted hand is shifted on the ring. -/
theorem set_shift {holes : ℕ} [NeZero holes] (small : holes ≤ 256) {h : Hand}
    (inside : ∀ x ∈ h.holes, x.toNat < holes) (amount : ℕ) :
    (h.shift holes amount).set holes = (h.set holes).image (· + Fin.ofNat holes amount) := by
  ext i
  have moved (j : Fin holes) : ((j + Fin.ofNat holes amount : Fin holes) : ℕ) =
      (j + amount) % holes := by
    rw [Fin.val_add, Fin.val_ofNat, Nat.add_mod_mod]
  rw [mem_set, mem_shift, Finset.mem_image]
  constructor
  · rintro ⟨x, held, same⟩
    refine ⟨⟨x.toNat, inside x held⟩, by simpa using held, Fin.ext ?_⟩
    have values := congrArg UInt8.toNat same
    rwa [toNat_ofNat_of_lt small (Nat.mod_lt _ (NeZero.pos holes)),
      toNat_ofNat_of_lt small i.isLt, ← moved ⟨x.toNat, inside x held⟩] at values
  · rintro ⟨j, held, rfl⟩
    refine ⟨UInt8.ofNat j, mem_set.1 held, ?_⟩
    rw [toNat_ofNat_of_lt small j.isLt, moved]

end Hand

namespace Coloring

open Readable

variable {C : Type} [Coloring C] [Readable C] {holes colors : ℕ}

/-- A permutation of the colors on bytes. A byte that is no color stays. -/
def rename (π : Equiv.Perm (Fin colors)) (x : UInt8) : UInt8 :=
  if h : x.toNat < colors then UInt8.ofNat (π ⟨x.toNat, h⟩) else x

theorem rename_ofNat (bytes : colors ≤ 256) (π : Equiv.Perm (Fin colors)) (x : Fin colors) :
    rename π (UInt8.ofNat x) = UInt8.ofNat (π x) := by
  have value := Hand.toNat_ofNat_of_lt bytes x.isLt
  simp [rename, value]

/-- Every hole shows the renamed color of what it shows in another coloring. -/
def Renamed (π : Equiv.Perm (Fin colors)) (holes : ℕ) (c d : C) : Prop :=
  ∀ i < holes, color? d i = (color? c i).map (rename π)

instance (π : Equiv.Perm (Fin colors)) (holes : ℕ) (c d : C) : Decidable (Renamed π holes c d) :=
  inferInstanceAs (Decidable (∀ i < holes, color? d i = (color? c i).map (rename π)))

theorem Renamed.shows (bytes : colors ≤ 256) {π : Equiv.Perm (Fin colors)} {c d : C}
    (renamed : Renamed π holes c d) {ring : Fin holes → Fin colors} (shown : Shows c ring) :
    Shows d (π ∘ ring) := by
  intro i
  rw [renamed i i.isLt, shown i, Option.map_some, rename_ofNat bytes, Function.comp_apply]

/-- Every coloring can be renamed. -/
theorem Lawful.exists_renamed (lawful : Lawful C holes colors) (bytes : colors ≤ 256)
    (π : Equiv.Perm (Fin colors)) {c : C} (hc : c ∈ (all holes colors : List C)) :
    ∃ d ∈ (all holes colors : List C), Renamed π holes c d := by
  obtain ⟨ring, shown⟩ := lawful.exists_ring hc
  obtain ⟨d, hd, shown'⟩ := lawful.exists_shown bytes (π ∘ ring)
  refine ⟨d, hd, fun i hi => ?_⟩
  rw [shown' ⟨i, hi⟩, shown ⟨i, hi⟩, Option.map_some, rename_ofNat bytes, Function.comp_apply]

end Coloring

namespace Puzzle

open Coloring

variable {C : Type} [DecidableEq C] [Hashable C] [Coloring C] [Readable C] {c : Config}

/-- The winning region of a lock does not change when the ring is turned, the hand is shifted around
the ring, and the colors are renamed. -/
def Symmetric [Inspect C] (p : Puzzle C) (c : Config) : Prop :=
  ∃ w, p.winningRegion? = some w ∧
    ∀ (coloring : C) (hand : Hand) (i j : ℕ) (π : Equiv.Perm (Fin c.colors.toNat)),
      coloring ∈ (all c.holes.toNat c.colors.toNat : List C) →
      hand ∈ Hand.options c.holes.toNat c.hand.toNat →
      ∃ turned, rotate? coloring i c.holes.toNat = some turned ∧
        (∃ d ∈ (all c.holes.toNat c.colors.toNat : List C), Renamed π c.holes.toNat turned d) ∧
        ∀ d ∈ (all c.holes.toNat c.colors.toNat : List C), Renamed π c.holes.toNat turned d →
          (p.arena.Holds w ⟨coloring, hand⟩ ↔
            p.arena.Holds w ⟨d, hand.shift c.holes.toNat j⟩)

theorem symmetric_of_model [Inspect C] {p : Puzzle C}
    {stepsFrom? : Position C → Option (List (Step C))} {hands : List Hand}
    {steps : List (List (Step C))} (model : Model c stepsFrom? hands)
    (expanded : p.Expanded c stepsFrom? steps) (small : p.arena.size < UInt32.size - 2)
    (around : ∀ (coloring : C) amount, rotate? coloring (amount % c.holes.toNat) c.holes.toNat =
      rotate? coloring amount c.holes.toNat) : p.Symmetric c := by
  obtain ⟨one, le, short, -, few⟩ := Config.bounds_of_check model.checked
  have lawful := model.lawful
  have bytes : c.colors.toNat ≤ 256 := by omega
  have : NeZero c.holes.toNat := ⟨by omega⟩
  obtain ⟨w, run, -, -, holds⟩ := exists_winningRegion? model expanded small
  refine ⟨w, run, fun coloring hand i j π member option => ?_⟩
  let amount := Fin.ofNat c.holes.toNat i
  obtain ⟨turned, member', rotates, brings⟩ := lawful.rotate coloring member amount amount.isLt
  refine ⟨turned, (around coloring i).symm.trans rotates, lawful.exists_renamed bytes π member',
    fun d hd renamed => ?_⟩
  obtain ⟨ring, shown⟩ := lawful.exists_ring member
  have shown' : Shows turned fun i => ring (i - amount) := fun i =>
    (brings i i.isLt).trans (shown.before i amount)
  have option' : hand.shift c.holes.toNat j ∈ Hand.options c.holes.toNat c.hand.toNat :=
    Hand.shift_mem_options (by omega) option j
  rw [holds, holds, lost_iff bytes (mem_positions.2 ⟨member, option⟩) shown,
    lost_iff bytes (mem_positions.2 ⟨hd, option'⟩) (renamed.shows bytes shown'),
    Hand.set_shift (by omega) (Hand.inside_of_mem_options (by omega) option)]
  refine forall_congr' fun turns => not_congr ?_
  rw [forces_map_iff, forces_shift_iff, forces_turn_iff]

/-- The winning region has the symmetries of the puzzle, in either model and for every checked
configuration whose positions are within the range of location ids. -/
theorem winningRegion?_symmetric (c : Config) :
    ({ c with colors := 2 }.check = .ok () →
      ((initial? { c with colors := 2 } : Option (Option (Position Packed))).isSome →
        ∃ p, (twoColor c).run = some (.ok p)) ∧
      ∀ p, (twoColor c).run = some (.ok p) → p.Symmetric { c with colors := 2 }) ∧
    (c.check = .ok () →
      c.colors.toNat ^ c.holes.toNat * (c.holes.toNat.choose c.hand.toNat + 1) < UInt32.size - 2 →
      ((initial? c : Option (Option (Position Listed))).isSome →
        ∃ p, (manyColor c).run = some (.ok p)) ∧
      ∀ p, (manyColor c).run = some (.ok p) → p.Symmetric c) := by
  constructor
  · intro checked
    refine ⟨exists_twoColor checked, fun p built => ?_⟩
    obtain ⟨model, steps, expanded⟩ := expanded_twoColor built
    exact symmetric_of_model model expanded (expanded.size_lt_of_two model rfl)
      fun coloring amount => coloring.rotate?_mod amount _
  · intro checked few
    refine ⟨exists_manyColor checked, fun p built => ?_⟩
    obtain ⟨model, steps, expanded⟩ := expanded_manyColor built
    exact symmetric_of_model model expanded ((expanded.size_le model.lawful).trans_lt few)
      fun coloring amount => coloring.rotate?_mod amount _

set_option maxRecDepth 10000 in
/-- Three holes: the ring turned by one, the hand shifted by two or by one, and the order of the
colors reversed. -/
theorem symmetric_of_three_holes :
    (∃ p w, (twoColor (.twoColor 3 1)).run = some (.ok p) ∧ p.winningRegion? = some w ∧
      (p.arena.Holds w ⟨⟨1⟩, ⟨[0]⟩⟩ ↔ p.arena.Holds w ⟨⟨5⟩, ⟨[2]⟩⟩)) ∧
    ∃ p w, (manyColor (.manyColor 3 2 3)).run = some (.ok p) ∧ p.winningRegion? = some w ∧
      (p.arena.Holds w ⟨⟨[0, 1, 2]⟩, ⟨[0, 2]⟩⟩ ↔ p.arena.Holds w ⟨⟨[0, 2, 1]⟩, ⟨[0, 1]⟩⟩) := by
  constructor
  · obtain ⟨built, symmetric⟩ := (winningRegion?_symmetric (.twoColor 3 1)).1 (by decide)
    obtain ⟨p, run⟩ := built (by decide +kernel)
    obtain ⟨w, region, moved⟩ := symmetric p run
    obtain ⟨turned, rotates, -, same⟩ :=
      moved ⟨1⟩ ⟨[0]⟩ 1 2 Fin.revPerm (by decide +kernel) (by decide +kernel)
    obtain rfl : turned = ⟨2⟩ := Option.some.inj (rotates.symm.trans (by decide +kernel))
    have shifted : Hand.shift 3 2 ⟨[0]⟩ = ⟨[2]⟩ := by simp [Hand.shift]
    exact ⟨p, w, run, region, shifted ▸ same ⟨5⟩ (by decide +kernel) (by decide +kernel)⟩
  · obtain ⟨built, symmetric⟩ := (winningRegion?_symmetric (.manyColor 3 2 3)).2 (by decide)
      (by decide)
    obtain ⟨p, run⟩ := built (by decide +kernel)
    obtain ⟨w, region, moved⟩ := symmetric p run
    obtain ⟨turned, rotates, -, same⟩ := moved ⟨[0, 1, 2]⟩ ⟨[0, 2]⟩ 1 1 Fin.revPerm
      (by decide +kernel) (by decide +kernel)
    obtain rfl : turned = ⟨[2, 0, 1]⟩ := Option.some.inj (rotates.symm.trans (by decide +kernel))
    have shifted : Hand.shift 3 1 ⟨[0, 2]⟩ = ⟨[0, 1]⟩ := by simp [Hand.shift, List.mergeSort]
    exact ⟨p, w, run, region, shifted ▸ same ⟨[0, 2, 1]⟩ (by decide +kernel) (by decide +kernel)⟩

end Puzzle

end RingLock
