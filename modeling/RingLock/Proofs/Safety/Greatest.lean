import RingLock.Proofs.Safety.Descent

/-!
# The winning region

Rounds of the solver as one run: it returns the region on which the rounds settle, and both counters
stand one above the number of rounds that changed something. That region is the greatest set inside
the target that the controller can stay in.
-/
namespace RingLock

variable {L : Type} [DecidableEq L] [Hashable L]

namespace Arena

theorem Settles.narrow {g : Arena L} {r : Region} {k : ℕ} (h : g.Settles r (k + 1)) :
    g.Settles (g.narrow r) k := by
  constructor
  · rw [rounds_narrow]
    exact h.stable
  · intro j hj
    rw [rounds_narrow]
    exact h.moving (j + 1) (Nat.succ_lt_succ hj)

end Arena

namespace Solver

/-- One more is counted at the start or at the end. -/
theorem one_add_ofNat (n : UInt32) (k : ℕ) :
    n + 1 + UInt32.ofNat k = n + UInt32.ofNat (k + 1) := by
  rw [UInt32.ofNat_add k 1]
  grind

/-- With room for one round more than those that change something, the descent returns. -/
theorem descend?_of_settles {g : Arena L} {r : Region} {k room : ℕ} (h : g.Settles r k)
    (enough : k < room) (stats : Stats) :
    descend? g room stats r = some (g.rounds r k, { stats with
      iterations := stats.iterations + UInt32.ofNat (k + 1)
      predecessorCalls := stats.predecessorCalls + UInt32.ofNat (k + 1)
      finalSize := (g.rounds r k).count }) := by
  induction k generalizing r room stats with
  | zero =>
    obtain ⟨room, rfl⟩ := Nat.exists_eq_add_of_lt enough
    exact if_pos h.stable
  | succ k ih =>
    obtain ⟨room, rfl⟩ := Nat.exists_eq_add_of_lt enough
    have changed : g.narrow r ≠ r := h.moving 0 (Nat.succ_pos k)
    rw [descend?, if_neg changed, ih h.narrow (by omega)]
    simp only [g.rounds_narrow, one_add_ofNat]

/-- The solver returns, whatever was counted before. -/
theorem exists_winning? {g : Arena L} (wf : g.WellFormed) (small : g.size < UInt32.size - 2)
    {target : Region} (fits : target.bound = g.size) :
    ∃ k, k + 1 < UInt32.size ∧ g.Settles target k ∧
      (g.rounds target k).excess + k ≤ target.excess ∧
      ∀ prior, winning? g prior target = some (g.rounds target k,
        { iterations := UInt32.ofNat (k + 1)
          predecessorCalls := UInt32.ofNat (k + 1)
          initialSize := target.count
          finalSize := (g.rounds target k).count
          micros := 0 }) := by
  have bounded : g.size < UInt32.size := by omega
  obtain ⟨k, settles, drop⟩ := Arena.exists_settles wf fits bounded
  have few : k ≤ g.size + 1 := by
    have := target.excess_le (fits ▸ bounded.le)
    omega
  refine ⟨k, by omega, settles, drop, fun prior => ?_⟩
  rw [winning?, if_pos fits, descend?_of_settles settles (by omega)]
  simp [Stats.zero]

end Solver

namespace Arena

/-- A set that the controller can stay in outlasts every round. -/
theorem subset_rounds {g : Arena L} (wf : g.WellFormed) (small : g.size < UInt32.size)
    {target : Region} (fits : target.bound = g.size) {s : Set LocId} (inside : s ⊆ target.ids)
    (stays : s ⊆ g.predecessor s) (k : ℕ) : s ⊆ (g.rounds target k).ids := by
  induction k with
  | zero => exact inside
  | succ k ih =>
    rw [ids_rounds_succ wf fits small]
    exact Set.subset_inter ih (stays.trans (predecessor_mono ih))

theorem rounds_subset {g : Arena L} (wf : g.WellFormed) (small : g.size < UInt32.size)
    {target : Region} (fits : target.bound = g.size) (k : ℕ) :
    (g.rounds target k).ids ⊆ target.ids := by
  induction k with
  | zero => exact subset_rfl
  | succ k ih =>
    rw [ids_rounds_succ wf fits small]
    exact Set.inter_subset_left.trans ih

theorem Settles.subset_predecessor {g : Arena L} (wf : g.WellFormed) (small : g.size < UInt32.size)
    {target : Region} (fits : target.bound = g.size) {k : ℕ} (h : g.Settles target k) :
    (g.rounds target k).ids ⊆ g.predecessor (g.rounds target k).ids := by
  have same : (g.rounds target (k + 1)).ids = (g.rounds target k).ids := by
    rw [rounds_succ, h.stable]
  rw [ids_rounds_succ wf fits small] at same
  exact Set.inter_eq_left.1 same

theorem Settles.isGreatest {g : Arena L} (wf : g.WellFormed) (small : g.size < UInt32.size)
    {target : Region} (fits : target.bound = g.size) {k : ℕ} (h : g.Settles target k) :
    IsGreatest {s | s ⊆ target.ids ∧ s ⊆ g.predecessor s} (g.rounds target k).ids :=
  ⟨⟨rounds_subset wf small fits k, h.subset_predecessor wf small fits⟩,
    fun _ hs => subset_rounds wf small fits hs.1 hs.2 k⟩

theorem Settles.counted {g : Arena L} {target : Region} {k : ℕ} (h : g.Settles target k) :
    (g.rounds target k).Counted := by
  rw [← h.stable]
  exact g.counted_narrow _

/-- The winning region is the greatest set inside the target and inside its own controllable
predecessor, and its stored number is right, even where the target's is wrong. -/
theorem winningRegion?_isGreatest [Inspect L] {g : Arena L} (issued : g.Issued)
    (small : g.size < UInt32.size - 2) {target : Region} (fits : target.bound = g.size) :
    ∃ w, g.winningRegion? target = some w ∧
      IsGreatest {s | s ⊆ target.ids ∧ s ⊆ g.predecessor s} w.ids ∧
      (∀ r : Region, (g.controllable r).ids = g.predecessor r.ids) ∧ w.size = w.ids.ncard := by
  have wf := issued.wellFormed
  have bounded : g.size < UInt32.size := by omega
  obtain ⟨k, -, settles, -, run⟩ := Solver.exists_winning? wf small fits
  refine ⟨g.rounds target k, by rw [winningRegion?, run]; rfl, settles.isGreatest wf bounded fits,
    fun r => ?_, settles.counted⟩
  ext id
  exact contains_controllable wf bounded r id

/-- Two locations: the first leads to the second, and the second leads nowhere. -/
theorem exists_two_locations : ∃ g : Arena UInt8, g.Issued ∧ g.size = 2 ∧ g.actions.size = 1 := by
  obtain ⟨g, built⟩ : ∃ g : Arena UInt8, build [0, 1] 0 [.ofNat 0] [(0, .ofNat 0, 1)] = .ok g :=
    exists_build (by decide) (by decide)
  obtain ⟨-, -, -, -, locations, actions, -, -⟩ := build_eq_ok built
  refine ⟨g, .built built, ?_, ?_⟩
  · rw [size, locations, Numbering.size_ofList (by decide)]
    rfl
  · rw [actions, Numbering.size_ofList (by decide)]
    rfl

/-- A target of both locations that stores a wrong number. -/
theorem winningRegion?_of_wrong_number : ∃ g : Arena UInt8, g.Issued ∧ g.size = 2 ∧
    ∃ w, g.winningRegion? ⟨#[true, true], 5⟩ = some w ∧ w.size = 2 := by
  obtain ⟨g, issued, two, one⟩ := exists_two_locations
  let target : Region := ⟨#[true, true], 5⟩
  have small : g.size < UInt32.size - 2 := by rw [two]; decide
  have fits : target.bound = g.size := two.symm
  obtain ⟨w, run, ⟨⟨inside, -⟩, greatest⟩, -, counted⟩ :=
    winningRegion?_isGreatest issued small fits
  have all (id : LocId) : target.contains id ↔ id.index < g.size := by
    have flags : ∀ i < 2, target.members[i]?.getD false = true := by decide
    exact ⟨fun member => fits ▸ Region.index_lt_bound member, fun inside => flags _ (two ▸ inside)⟩
  have stays : target.ids ⊆ g.predecessor target.ids := by
    intro id member
    refine ⟨(all id).1 member, 0, by omega, fun next leads => ?_⟩
    exact (all next).2 (issued.wellFormed.index_lt leads)
  have both : w.ids = target.ids := inside.antisymm (greatest ⟨subset_rfl, stays⟩)
  refine ⟨g, issued, two, w, run, ?_⟩
  rw [counted, both, Region.ncard_ids (by decide)]
  rfl

end Arena

end RingLock
