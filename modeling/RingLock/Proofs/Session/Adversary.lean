import RingLock.Proofs.Random.Fork
import RingLock.Proofs.Ring.Stored
import RingLock.Proofs.Session.Runs

/-!
# The adversary's rotations

The adversary draws from its own generator, and only where a turn of the ring is answered. The range
of the draw is the size of the ring, which no call changes. So the amounts of a run are the first
draws of the generator in order, however the player plays. The generator of a session that is made
from a configuration is a child, which does not tell how many words the first coloring took.
-/
namespace RingLock

/-- The draw below a range that comes after so many others. -/
def Generator.laterBelow? (range : ℕ) : ℕ → Generator → Option ℕ
  | 0, g => (g.below64? range).map Prod.fst
  | count + 1, g => (g.below64? range).bind fun drawn => laterBelow? range count drawn.2

/-- No cycle of a hole changes how many holes there are. -/
theorem Ring.size_of_cycle? {r q : Ring} {hole : ℕ} (cycles : r.cycle? hole = some q) :
    q.size = r.size := by
  rw [cycle?] at cycles
  split at cycles
  · obtain rfl := Option.some.inj cycles
    rfl
  · obtain ⟨color, -, rfl⟩ := Option.map_eq_some_iff.1 cycles
    exact List.length_set

/-- The amount of a turn that was answered. -/
def Session.Reply.amount? : Reply → Option ℕ
  | .accepted _ => none
  | .turned amount => amount

namespace Session

variable {s t : Session} {call : Call} {reply : Reply} {calls : List Call}
  {trail : List (Session × Reply)}

/-- The amounts of the turns that a trail tells of, in order. -/
def amounts (trail : List (Session × Reply)) : List ℕ := trail.filterMap fun cell => cell.2.amount?

/-- What a step does to the adversary: one draw below the size of the ring if a turn is answered,
and nothing otherwise. -/
structure Draws (s : Session) (reply : Reply) (t : Session) : Prop where
  size : t.ring.size = s.ring.size
  silent : reply.amount? = none → t.adversary = s.adversary
  turned : ∀ amount, reply.amount? = some amount →
    s.adversary.below64? (max s.ring.size 1) = some (amount, t.adversary)

/-- Any step, on a sound ring or not. -/
theorem Becomes.draws (becomes : s.Becomes call reply t) : s.Draws reply t := by
  cases becomes with
  | @refused call => exact ⟨rfl, fun _ => rfl, by cases call <;> nofun⟩
  | selected => exact ⟨rfl, fun _ => rfl, nofun⟩
  | cycled recolorable cycles =>
    refine ⟨?_, fun _ => settle_adversary _, nofun⟩
    rw [settle_ring]
    exact Ring.size_of_cycle? cycles
  | committed => exact ⟨rfl, fun _ => rfl, nofun⟩
  | turned awaited draws counted =>
    refine ⟨?_, nofun, ?_⟩
    · rw [settle_ring]
      exact Ring.size_rotate _ _
    · intro other answered
      obtain rfl := Option.some.inj answered
      rw [settle_adversary]
      exact draws

/-- The amounts of a run are draws of the adversary, one after the other. -/
theorem getElem?_amounts (run : s.run? calls = some trail) {i amount : ℕ}
    (there : (amounts trail)[i]? = some amount) :
    s.adversary.laterBelow? (max s.ring.size 1) i = some amount := by
  induction calls generalizing s trail i with
  | nil =>
    obtain rfl := Option.some.inj run
    contradiction
  | cons call calls ih =>
    obtain ⟨t, reply, later, becomes, rest, rfl⟩ := run?_cons_eq_some_iff.1 run
    have draws := becomes.draws
    cases answer : reply.amount? with
    | none =>
      have skipped : amounts ((t, reply) :: later) = amounts later :=
        List.filterMap_cons_none answer
      rw [skipped] at there
      rw [← draws.size, ← draws.silent answer]
      exact ih rest there
    | some first =>
      have counted : amounts ((t, reply) :: later) = first :: amounts later :=
        List.filterMap_cons_some answer
      rw [counted] at there
      cases i with
      | zero =>
        obtain rfl := Option.some.inj there
        rw [Generator.laterBelow?, draws.turned first answer, Option.map_some]
      | succ i =>
        rw [Generator.laterBelow?, draws.turned first answer, Option.bind_some, ← draws.size]
        exact ih rest there

/-- Runs of two sessions show the same amounts as far as both go, whatever is called. -/
def SameRotations (s t : Session) : Prop :=
  ∀ calls trail, s.run? calls = some trail → ∀ calls' trail', t.run? calls' = some trail' →
    ∀ i a b : ℕ, (amounts trail)[i]? = some a → (amounts trail')[i]? = some b → a = b

theorem sameRotations (sizes : s.ring.size = t.ring.size)
    (adversaries : s.adversary = t.adversary) : s.SameRotations t := by
  intro calls trail run calls' trail' run' i a b first second
  have drawn := getElem?_amounts run first
  have drawn' := getElem?_amounts run' second
  rw [sizes, adversaries, drawn'] at drawn
  exact (Option.some.inj drawn).symm

/-- The adversary of a configuration's session depends on the seed alone. -/
theorem ofConfig_adversary {c : Config} (built : (ofConfig c).run = some (.ok s)) :
    s.adversary = .ofSeed (c.seed + Generator.forkStride) := by
  obtain ⟨-, ring, g, adversary, parent, draws, forks, rfl⟩ := ofConfig_draws built
  obtain ⟨other, forks'⟩ := (Ring.random?_akin draws).fork?
  obtain ⟨rfl, -⟩ := Prod.mk.inj (Option.some.inj (forks.symm.trans forks'))
  exact settle_adversary _

theorem ofConfig_size {c : Config} (built : (ofConfig c).run = some (.ok s)) :
    s.ring.size = c.holes.toNat := by
  obtain ⟨-, ring, adversary, rfl, -, size, -⟩ := ofConfig_eq_ok built
  rw [start, settle_ring]
  exact size

/-- A configuration that passes the check has a session if the draws of its first colors end. -/
theorem exists_ofConfig {c : Config} (checked : c.check = .ok ())
    (yields : (Generator.ofSeed c.seed).Yields (Generator.color? (max c.colors.toUInt8 1))
      c.holes.toNat) : ∃ s, (ofConfig c).run = some (.ok s) := by
  obtain ⟨ring, g, draws⟩ := Ring.exists_random? yields
  obtain ⟨parent, forks⟩ := (Ring.random?_akin draws).fork?
  refine ⟨start ring c.hand.toNat (.ofSeed (c.seed + Generator.forkStride)), ?_⟩
  refine Attempt.check_then_eq_ok.2 ⟨checked, Attempt.run_ofOption.2 ?_⟩
  rw [draws]
  change g.fork?.bind _ = _
  rw [forks]
  rfl

/-- Two games on rings of one size, against adversaries with one generator, show the same rotations,
whatever the rings, the hands and the calls are: the amounts are the draws of the generator in their
order. So do two games that were made from configurations with one seed and one number of holes. -/
theorem rotations_ignore_player :
    (∀ (r q : Ring) (m n : ℕ) (g : Generator), r.size = q.size →
      (start r m g).SameRotations (start q n g)) ∧
    (∀ (r : Ring) (m : ℕ) (g : Generator) calls trail, (start r m g).run? calls = some trail →
      ∀ i a : ℕ, (amounts trail)[i]? = some a → g.laterBelow? (max r.size 1) i = some a) ∧
    (∀ c d s t, (ofConfig c).run = some (.ok s) → (ofConfig d).run = some (.ok t) →
      c.holes = d.holes → c.seed = d.seed → s.SameRotations t) ∧
    ∀ c : Config, c.check = .ok () → (Generator.ofSeed c.seed).Yields
      (Generator.color? (max c.colors.toUInt8 1)) c.holes.toNat →
      ∃ s, (ofConfig c).run = some (.ok s) := by
  refine ⟨?_, ?_, ?_, fun c => exists_ofConfig⟩
  · intro r q m n g sizes
    apply sameRotations
    · rw [start, start, settle_ring, settle_ring]
      exact sizes
    · rw [start, start, settle_adversary, settle_adversary]
  · intro r m g calls trail run i a there
    have drawn := getElem?_amounts run there
    rwa [start, settle_ring, settle_adversary] at drawn
  · intro c d s t built built' holes seeds
    apply sameRotations
    · rw [ofConfig_size built, ofConfig_size built', holes]
    · rw [ofConfig_adversary built, ofConfig_adversary built', seeds]

/-- Two games on four holes. One has two colors and a hand of one, the other three colors, a hand of
two, refused calls and a cycle between the turns. Both are turned twice, by the same amounts. And
the two games that one seed gives on two holes. -/
theorem rotations_of_four_holes :
    (∃ trail trail',
      (start (.of [0, 1, 0, 1] 2) 1 (.ofSeed 9)).run?
        [.select 0, .commit, .respond, .select 1, .commit, .respond] = some trail ∧
      (start (.of [2, 0, 1, 1] 3) 2 (.ofSeed 9)).run?
        [.respond, .select 3, .select 9, .select 1, .cycle 3, .commit, .respond, .select 0,
          .select 1, .commit, .commit, .respond] = some trail' ∧
      (amounts trail).length = 2 ∧ amounts trail' = amounts trail) ∧
    ∃ s t, (ofConfig ⟨2, 1, 2, 42⟩).run = some (.ok s) ∧
      (ofConfig ⟨2, 2, 3, 42⟩).run = some (.ok t) ∧ s.SameRotations t := by
  obtain ⟨known, -, seeded, made⟩ := rotations_ignore_player
  have played : ((start (.of [0, 1, 0, 1] 2) 1 (.ofSeed 9)).run?
      [.select 0, .commit, .respond, .select 1, .commit, .respond]).map
      (fun trail => (amounts trail).length) = some 2 := by
    decide +kernel
  have played' : ((start (.of [2, 0, 1, 1] 3) 2 (.ofSeed 9)).run?
      [.respond, .select 3, .select 9, .select 1, .cycle 3, .commit, .respond, .select 0,
        .select 1, .commit, .commit, .respond]).map
      (fun trail => (amounts trail).length) = some 2 := by
    decide +kernel
  constructor
  · obtain ⟨trail, run, two⟩ := Option.map_eq_some_iff.1 played
    obtain ⟨trail', run', two'⟩ := Option.map_eq_some_iff.1 played'
    refine ⟨trail, trail', run, run', two, List.ext_getElem (two'.trans two.symm) ?_⟩
    intro i inside' inside
    have same := known (.of [0, 1, 0, 1] 2) (.of [2, 0, 1, 1] 3) 1 2 (.ofSeed 9) rfl
    exact (same _ _ run _ _ run' i _ _ (List.getElem?_eq_getElem inside)
      (List.getElem?_eq_getElem inside')).symm
  · obtain ⟨s, built⟩ := made ⟨2, 1, 2, 42⟩ rfl (by decide +kernel)
    obtain ⟨t, built'⟩ := made ⟨2, 2, 3, 42⟩ rfl (by decide +kernel)
    exact ⟨s, t, built, built', seeded _ _ s t built built' rfl rfl⟩

end Session

end RingLock
