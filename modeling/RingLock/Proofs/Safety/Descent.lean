import Mathlib.Logic.Function.Iterate
import RingLock.Proofs.Arena.RegionIds
import RingLock.Proofs.Arena.WellFormed
import RingLock.Safety.Fixpoint

/-!
# The descent to the fixpoint

On sets of ids, a round keeps the members that have an action staying in the set. A round that
changes a region lowers its excess: the number of its members, and one more if the stored number is
wrong. So the rounds settle, and there is room to count them. The solver returns the region on which
they settle.
-/
namespace RingLock

variable {L : Type} [DecidableEq L] [Hashable L]

namespace Arena

/-- Some listed action sends every successor of an id into a set. -/
def Controls (g : Arena L) (s : Set LocId) (id : LocId) : Prop :=
  ∃ place < g.actions.size, ∀ target, g.Leads place id target → target ∈ s

/-- The controllable predecessor of a set. -/
def predecessor (g : Arena L) (s : Set LocId) : Set LocId :=
  {id | id.index < g.size ∧ g.Controls s id}

theorem predecessor_mono {g : Arena L} {s t : Set LocId} (h : s ⊆ t) :
    g.predecessor s ⊆ g.predecessor t := by
  rintro id ⟨inside, place, listed, stays⟩
  exact ⟨inside, place, listed, fun target leads => h (stays target leads)⟩

theorem contains_controllable {g : Arena L} (wf : g.WellFormed) (small : g.size < UInt32.size)
    (r : Region) (id : LocId) :
    (g.controllable r).contains id ↔ id ∈ g.predecessor r.ids := by
  rw [controllable, Region.contains_ofFn small, Bool.and_eq_true, decide_eq_true_eq]
  refine and_congr_right fun inside => ?_
  have row_some : g.successors[id.index]? = some (g.row id) := by
    have bounded : id.index < g.successors.size := wf.sized.rows ▸ inside
    simp [row, bounded]
  have columns : (g.row id).size = g.actions.size :=
    wf.sized.columns _ (Array.mem_of_getElem? row_some)
  have leads (place : ℕ) (target : LocId) :
      g.Leads place id target ↔ ∃ ids, (g.row id)[place]? = some ids ∧ target ∈ ids := by
    rw [Leads, successorsAt?, row_some, Option.bind_some]
  rw [Array.any_eq_true]
  simp only [List.all_eq_true, Controls, leads, ← columns]
  constructor
  · rintro ⟨place, listed, stays⟩
    refine ⟨place, listed, ?_⟩
    rintro target ⟨ids, found, member⟩
    obtain rfl : (g.row id)[place] = ids := by simpa [listed] using found
    exact stays target member
  · rintro ⟨place, listed, stays⟩
    refine ⟨place, listed, fun target member => stays target ⟨_, ?_, member⟩⟩
    simp [listed]

theorem bound_controllable {g : Arena L} (small : g.size < UInt32.size) (r : Region) :
    (g.controllable r).bound = g.size := by
  rw [controllable, Region.bound_ofFn, Nat.mod_eq_of_lt small]

@[simp] theorem bound_narrow (g : Arena L) {r : Region} (small : r.bound < UInt32.size) :
    (g.narrow r).bound = r.bound := by
  rw [narrow, Region.inter, Region.bound_ofFn, Nat.mod_eq_of_lt small]

theorem counted_narrow (g : Arena L) (r : Region) : (g.narrow r).Counted :=
  Region.counted_ofFn ..

theorem ids_narrow {g : Arena L} (wf : g.WellFormed) {r : Region} (fits : r.bound = g.size)
    (small : g.size < UInt32.size) : (g.narrow r).ids = r.ids ∩ g.predecessor r.ids := by
  ext id
  rw [Region.mem_ids, narrow, Region.contains_inter (fits ▸ small), Bool.and_eq_true,
    contains_controllable wf small]
  rfl

/-- The region after some rounds. -/
def rounds (g : Arena L) (r : Region) (k : ℕ) : Region := g.narrow^[k] r

@[simp] theorem rounds_zero (g : Arena L) (r : Region) : g.rounds r 0 = r := rfl

theorem rounds_succ (g : Arena L) (r : Region) (k : ℕ) :
    g.rounds r (k + 1) = g.narrow (g.rounds r k) := Function.iterate_succ_apply' ..

theorem rounds_narrow (g : Arena L) (r : Region) (k : ℕ) :
    g.rounds (g.narrow r) k = g.rounds r (k + 1) := (Function.iterate_succ_apply ..).symm

theorem bound_rounds (g : Arena L) {r : Region} (small : r.bound < UInt32.size) (k : ℕ) :
    (g.rounds r k).bound = r.bound := by
  induction k with
  | zero => rfl
  | succ k ih => rw [rounds_succ, bound_narrow g (by rwa [ih]), ih]

/-- One round on sets. -/
theorem ids_rounds_succ {g : Arena L} (wf : g.WellFormed) {r : Region} (fits : r.bound = g.size)
    (small : g.size < UInt32.size) (k : ℕ) :
    (g.rounds r (k + 1)).ids = (g.rounds r k).ids ∩ g.predecessor (g.rounds r k).ids := by
  rw [rounds_succ, ids_narrow wf _ small]
  rw [bound_rounds g (fits ▸ small), fits]

/-- The rounds change nothing from the given one on, and each one before it changed something. -/
structure Settles (g : Arena L) (r : Region) (k : ℕ) : Prop where
  stable : g.narrow (g.rounds r k) = g.rounds r k
  moving : ∀ j < k, g.narrow (g.rounds r j) ≠ g.rounds r j

theorem Settles.of_narrow {g : Arena L} {r : Region} {k : ℕ} (h : g.Settles (g.narrow r) k)
    (changed : g.narrow r ≠ r) : g.Settles r (k + 1) := by
  constructor
  · rw [← rounds_narrow]
    exact h.stable
  · intro j hj
    cases j with
    | zero => exact changed
    | succ j =>
      rw [← rounds_narrow]
      exact h.moving j (Nat.lt_of_succ_lt_succ hj)

theorem Settles.unique {g : Arena L} {r : Region} {j k : ℕ} (hj : g.Settles r j)
    (hk : g.Settles r k) : j = k := by
  rcases Nat.lt_trichotomy j k with less | same | more
  · exact absurd hj.stable (hk.moving j less)
  · exact same
  · exact absurd hk.stable (hj.moving k more)

end Arena

namespace Region

open Classical in
/-- The number of members, and one more if the stored number is wrong. -/
noncomputable def excess (r : Region) : ℕ := r.ids.ncard + if r.Counted then 0 else 1

theorem excess_of_counted {r : Region} (h : r.Counted) : r.excess = r.ids.ncard := by
  simp [excess, h]

theorem ncard_le_excess (r : Region) : r.ids.ncard ≤ r.excess := Nat.le_add_right ..

theorem excess_le (r : Region) (h : r.bound ≤ UInt32.size) : r.excess ≤ r.bound + 1 := by
  have := ncard_ids_le h
  unfold excess
  split <;> omega

end Region

namespace Arena

/-- A round that changes a region lowers its excess. If it takes no member away, it has put a wrong
number right. -/
theorem excess_narrow_lt {g : Arena L} (wf : g.WellFormed) {r : Region} (fits : r.bound = g.size)
    (small : g.size < UInt32.size) (changed : g.narrow r ≠ r) :
    (g.narrow r).excess < r.excess := by
  have bounded : r.bound < UInt32.size := fits ▸ small
  have below : (g.narrow r).ids ⊆ r.ids := by
    rw [ids_narrow wf fits small]
    exact Set.inter_subset_left
  rw [Region.excess_of_counted (g.counted_narrow r)]
  by_cases same : (g.narrow r).ids = r.ids
  · have wrong : ¬r.Counted := by
      intro right
      have bounds := bound_narrow g bounded
      have counted := g.counted_narrow r
      exact changed (Region.eq_of_ids_eq bounds (bounds ▸ bounded.le) same counted right)
    simp [Region.excess, wrong, same]
  · have fewer := Set.ncard_lt_ncard (below.ssubset_of_ne same) (Region.finite_ids bounded.le)
    exact fewer.trans_le r.ncard_le_excess

theorem exists_settles {g : Arena L} (wf : g.WellFormed) {r : Region} (fits : r.bound = g.size)
    (small : g.size < UInt32.size) :
    ∃ k, g.Settles r k ∧ (g.rounds r k).excess + k ≤ r.excess := by
  induction h : r.excess using Nat.strong_induction_on generalizing r with
  | _ n ih =>
    by_cases stable : g.narrow r = r
    · exact ⟨0, ⟨stable, nofun⟩, by simp [h]⟩
    · have lower := excess_narrow_lt wf fits small stable
      have fits' : (g.narrow r).bound = g.size := by rw [bound_narrow g (fits ▸ small), fits]
      obtain ⟨k, settles, bounded⟩ := ih _ (h ▸ lower) fits' rfl
      refine ⟨k + 1, settles.of_narrow stable, ?_⟩
      rw [← rounds_narrow]
      omega

end Arena

end RingLock
