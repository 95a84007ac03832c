import RingLock.Proofs.Safety.Greatest

/-!
# Controllers and plays

The safety game behind the winning region. In every location the controller chooses an action, and
the opponent moves to one of its successors. Where there is none, the play ends. From a winning
location, one choice for each location keeps every play inside the target. From any other location,
whatever the controller chooses from the whole play so far, some play leaves the target within the
rounds that changed something.
-/
namespace RingLock

variable {L : Type} [DecidableEq L] [Hashable L]

/-- A choice of a place in the list of actions from the ids visited so far, the last one first. -/
abbrev Controller := List LocId → ℕ

/-- The controller that looks at the last id alone. -/
def Controller.memoryless (choice : LocId → ℕ) : Controller
  | [] => 0
  | here :: _ => choice here

namespace Arena

/-- The ids visited by a play against a controller, the last one first. -/
inductive Play (g : Arena L) (controller : Controller) (start : LocId) : List LocId → Prop
  | start : Play g controller start [start]
  | step {here next : LocId} {past : List LocId} : Play g controller start (here :: past) →
      g.Leads (controller (here :: past)) here next → Play g controller start (next :: here :: past)

/-- Choices that keep a set keep every play from one of its members. -/
theorem Play.stays {g : Arena L} {choice : LocId → ℕ} {start : LocId} {s : Set LocId}
    (member : start ∈ s) (keeps : ∀ id ∈ s, ∀ next, g.Leads (choice id) id next → next ∈ s)
    {visited : List LocId} (play : g.Play (.memoryless choice) start visited) :
    ∀ id ∈ visited, id ∈ s := by
  induction play with
  | start => simpa using member
  | @step here next past _ leads ih =>
    have reached : next ∈ s := keeps here (ih here List.mem_cons_self) next leads
    simpa [reached] using ih

/-- A set inside its controllable predecessor is kept by some choice for each location. -/
theorem exists_choice {g : Arena L} {s : Set LocId} (stays : s ⊆ g.predecessor s)
    (nonempty : s.Nonempty) :
    ∃ choice : LocId → ℕ, (∀ id, choice id < g.actions.size) ∧
      ∀ id ∈ s, ∀ next, g.Leads (choice id) id next → next ∈ s := by
  obtain ⟨first, member⟩ := nonempty
  obtain ⟨-, spare, listed, -⟩ := stays member
  have each (id : LocId) : ∃ place < g.actions.size,
      id ∈ s → ∀ next, g.Leads place id next → next ∈ s := by
    by_cases inside : id ∈ s
    · obtain ⟨-, place, listed, keeps⟩ := stays inside
      exact ⟨place, listed, fun _ => keeps⟩
    · exact ⟨spare, listed, fun h => absurd h inside⟩
  choose choice listed keeps using each
  exact ⟨choice, listed, keeps⟩

/-- The last ids of the plays against a memoryless controller make up a set that it keeps. -/
theorem subset_predecessor_of_memoryless {g : Arena L} {choice : LocId → ℕ} {start : LocId}
    {target : Region} (fits : target.bound = g.size)
    (legal : ∀ id, id.index < g.size → choice id < g.actions.size)
    (safe : ∀ visited, g.Play (.memoryless choice) start visited →
      ∀ id ∈ visited, target.contains id) :
    let s := {id | ∃ past, g.Play (.memoryless choice) start (id :: past)}
    s ⊆ target.ids ∧ s ⊆ g.predecessor s := by
  intro s
  have inside : s ⊆ target.ids := fun id ⟨past, play⟩ => safe _ play id List.mem_cons_self
  refine ⟨inside, ?_⟩
  rintro id ⟨past, play⟩
  have bounded : id.index < g.size := fits ▸ Region.index_lt_bound (inside ⟨past, play⟩)
  refine ⟨bounded, choice id, legal id bounded, fun next leads => ?_⟩
  exact ⟨id :: past, play.step leads⟩

/-- An id that is gone after `k` rounds is `k` steps away from leaving the target: as long as it is
in the target, every action has a successor that was gone one round earlier. -/
theorem exists_escape {g : Arena L} (wf : g.WellFormed) (small : g.size < UInt32.size)
    {target : Region} (fits : target.bound = g.size) {controller : Controller} {start : LocId}
    (legal : ∀ visited, g.Play controller start visited → controller visited < g.actions.size)
    (k : ℕ) {here : LocId} {past : List LocId} (play : g.Play controller start (here :: past))
    (gone : here ∉ (g.rounds target k).ids) :
    ∃ escaped way, g.Play controller start (escaped :: way) ∧ ¬target.contains escaped ∧
      way.length ≤ past.length + k := by
  induction k generalizing here past with
  | zero => exact ⟨here, past, play, gone, le_rfl⟩
  | succ k ih =>
    rw [ids_rounds_succ wf fits small] at gone
    by_cases earlier : here ∈ (g.rounds target k).ids
    · have bounded : here.index < g.size :=
        fits ▸ Region.index_lt_bound (rounds_subset wf small fits k earlier)
      have uncontrolled : ¬g.Controls (g.rounds target k).ids here :=
        fun controls => gone ⟨earlier, bounded, controls⟩
      obtain ⟨next, leads, lost⟩ : ∃ next, g.Leads (controller (here :: past)) here next ∧
          next ∉ (g.rounds target k).ids := by
        by_contra stuck
        push Not at stuck
        exact uncontrolled ⟨_, legal _ play, stuck⟩
      obtain ⟨escaped, way, play', out, short⟩ := ih (play.step leads) lost
      exact ⟨escaped, way, play', out, by simp only [List.length_cons] at short; omega⟩
    · obtain ⟨escaped, way, play', out, short⟩ := ih play earlier
      exact ⟨escaped, way, play', out, by omega⟩

/-- The winning region decides the safety game. Its members are the locations from which some
memoryless controller keeps every play inside the target. From any other location of the target,
every controller, whatever it remembers, faces a play that leaves the target after at most one step
less than the solver counted. -/
theorem winning?_decides_safety [Inspect L] {g : Arena L} (issued : g.Issued)
    (small : g.size < UInt32.size - 2) {target : Region} (fits : target.bound = g.size)
    (prior : Stats) :
    ∃ w stats, Solver.winning? g prior target = some (w, stats) ∧ g.winningRegion? target = some w ∧
      (∀ v, w.contains v ↔ ∃ choice : LocId → ℕ,
        (∀ id, id.index < g.size → choice id < g.actions.size) ∧
          ∀ visited, g.Play (.memoryless choice) v visited → ∀ id ∈ visited, target.contains id) ∧
      ∀ v, target.contains v → ¬w.contains v → ∀ controller : Controller,
        (∀ visited, g.Play controller v visited → controller visited < g.actions.size) →
          ∃ escaped way, g.Play controller v (escaped :: way) ∧ ¬target.contains escaped ∧
            way.length ≤ stats.iterations.toNat - 1 := by
  have wf := issued.wellFormed
  have bounded : g.size < UInt32.size := by omega
  obtain ⟨k, counted, settles, -, run⟩ := Solver.exists_winning? wf small fits
  obtain ⟨⟨inside, stays⟩, greatest⟩ := settles.isGreatest wf bounded fits
  refine ⟨_, _, run prior, by rw [winningRegion?, run]; rfl, fun v => ⟨fun member => ?_, ?_⟩, ?_⟩
  · obtain ⟨choice, legal, keeps⟩ := exists_choice stays ⟨v, member⟩
    refine ⟨choice, fun id _ => legal id, fun visited play id visit => ?_⟩
    exact inside (play.stays member keeps id visit)
  · rintro ⟨choice, legal, safe⟩
    exact greatest (subset_predecessor_of_memoryless fits legal safe) ⟨[], .start⟩
  · intro v _ lost controller legal
    obtain ⟨escaped, way, play, out, short⟩ := exists_escape wf bounded fits legal k .start lost
    refine ⟨escaped, way, play, out, ?_⟩
    have iterations : (UInt32.ofNat (k + 1)).toNat = k + 1 := UInt32.toNat_ofNat_of_lt' counted
    simp only [iterations]
    simpa using short

/-- A controller with one action keeps every play from the first of two locations inside both. -/
theorem winning?_of_two_locations : ∃ g : Arena UInt8, g.Issued ∧ g.size = 2 ∧
    ∃ w stats, Solver.winning? g .zero ⟨#[true, true], 2⟩ = some (w, stats) ∧
      w.contains (.ofNat 0) := by
  obtain ⟨g, issued, two, one⟩ := exists_two_locations
  let target : Region := ⟨#[true, true], 2⟩
  have small : g.size < UInt32.size - 2 := by rw [two]; decide
  have fits : target.bound = g.size := two.symm
  obtain ⟨w, stats, run, -, decides, -⟩ := winning?_decides_safety issued small fits .zero
  have inside (id : LocId) (bounded : id.index < g.size) : id ∈ target.ids := by
    have flags : ∀ i < 2, target.members[i]?.getD false = true := by decide
    exact flags _ (two ▸ bounded)
  refine ⟨g, issued, two, w, stats, run, (decides _).2 ⟨fun _ => 0, fun _ _ => by simp [one], ?_⟩⟩
  intro visited play
  have first : LocId.ofNat 0 ∈ target.ids := inside _ (by rw [two]; decide)
  exact play.stays first fun id _ next leads => inside next (issued.wellFormed.index_lt leads)

end Arena

end RingLock
