import RingLock.Proofs.Session.Invariants
import RingLock.Proofs.Traversal

/-!
# Runs of sessions

Whatever is called, and in whatever order, every session that a run passes through is consistent,
keeps the size, the palette and the hand of its start, and has counted the turns of the ring. Runs
end early only where the adversary is asked, and then only for want of a draw or of the count.
-/
namespace RingLock.Session

variable {s₀ s t : Session} {call : Call} {reply : Reply} {trail : List (Session × Reply)}

/-- The draw of the first ring and the fork of the adversary's generator. -/
theorem ofConfig_draws {c : Config} (built : (ofConfig c).run = some (.ok s)) :
    c.check = .ok () ∧ ∃ ring g adversary parent,
      Ring.random? c.holes.toNat c.colors.toUInt8 (.ofSeed c.seed) = some (ring, g) ∧
      g.fork? = some (adversary, parent) ∧ s = start ring c.hand.toNat adversary := by
  obtain ⟨checked, rest⟩ := Attempt.check_then_eq_ok.1 built
  obtain ⟨⟨ring, g⟩, draws, rest⟩ := Option.bind_eq_some_iff.1 (Attempt.run_ofOption.1 rest)
  obtain ⟨⟨adversary, parent⟩, forks, same⟩ := Option.bind_eq_some_iff.1 rest
  exact ⟨checked, ring, g, adversary, parent, draws, forks, (Option.some.inj same).symm⟩

/-- The session of a configuration, before the first call. -/
theorem ofConfig_eq_ok {c : Config} (built : (ofConfig c).run = some (.ok s)) :
    c.check = .ok () ∧ ∃ ring adversary, s = start ring c.hand.toNat adversary ∧ ring.Sound ∧
      ring.size = c.holes.toNat ∧ ring.palette = max c.colors.toUInt8 1 := by
  obtain ⟨checked, ring, g, adversary, parent, draws, -, same⟩ := ofConfig_draws built
  exact ⟨checked, ring, adversary, same, Ring.random?_eq_some draws⟩

/-- A session before the first call, on a known ring or on the ring of a configuration. -/
inductive Started : Session → Prop
  | known {ring : Ring} (sound : ring.Sound) (handSize : ℕ) (adversary : Generator) :
    Started (start ring handSize adversary)
  | drawn {c : Config} {s : Session} (built : (ofConfig c).run = some (.ok s)) : Started s

/-- Every session begins on a sound ring. -/
theorem Started.exists_start (started : s.Started) :
    ∃ ring handSize adversary, ring.Sound ∧ s = start ring handSize adversary := by
  cases started with
  | @known ring sound handSize adversary => exact ⟨ring, handSize, adversary, sound, rfl⟩
  | @drawn c s built =>
    obtain ⟨-, ring, adversary, same, sound, -, -⟩ := ofConfig_eq_ok built
    exact ⟨ring, c.hand.toNat, adversary, sound, same⟩

theorem Started.consistent (started : s.Started) : s.Consistent := by
  obtain ⟨ring, handSize, adversary, sound, rfl⟩ := started.exists_start
  exact consistent_start sound handSize adversary

theorem Started.rounds (started : s.Started) : s.rounds = 0 := by
  obtain ⟨ring, handSize, adversary, -, rfl⟩ := started.exists_start
  exact settle_rounds _

/-- Two sessions with rings of one size, one palette and one size of the hand. -/
structure SameSizes (s t : Session) : Prop where
  size : t.ring.size = s.ring.size
  palette : t.ring.palette = s.ring.palette
  handSize : t.handSize = s.handSize

theorem SameSizes.trans {u : Session} (first : s.SameSizes t) (next : t.SameSizes u) :
    s.SameSizes u where
  size := next.size.trans first.size
  palette := next.palette.trans first.palette
  handSize := next.handSize.trans first.handSize

/-- What is true of the session in which a trail ends. -/
structure Played (s₀ : Session) (trail : List (Session × Reply)) (s : Session) : Prop
    extends Consistent s, SameSizes s₀ s where
  rounds : s.rounds.toNat = s₀.rounds.toNat + rotations trail

/-- No call changes a size. -/
theorem Consistent.sameSizes (consistent : s.Consistent) (becomes : s.Becomes call reply t) :
    s.SameSizes t := by
  have handSize : t.handSize = s.handSize := by cases becomes <;> simp
  have effect := consistent.effect becomes
  rcases effect.kept with same | ⟨hole, cycle, accepted⟩ | ⟨amount, answer⟩
  · exact ⟨congrArg Ring.size same, congrArg Ring.palette same, handSize⟩
  · obtain ⟨-, -, advanced⟩ := effect.cycled hole cycle accepted
    exact ⟨advanced.size, advanced.palette, handSize⟩
  · obtain ⟨-, -, turned⟩ := effect.turned amount answer
    exact ⟨turned.size, turned.palette, handSize⟩

/-- A turn of the ring is counted, and nothing else is. -/
theorem Becomes.rounds (becomes : s.Becomes call reply t) :
    t.rounds.toNat = s.rounds.toNat + rotations [(t, reply)] := by
  cases becomes with
  | @refused call => cases call <;> rfl
  | selected => rfl
  | cycled => rw [settle_rounds]; rfl
  | committed => rfl
  | turned awaited draws counted =>
    rw [settle_rounds, UInt32.toNat_add, UInt32.toNat_one, Nat.mod_eq_of_lt counted]
    rfl

theorem Played.step (played : Played s₀ trail s) (becomes : s.Becomes call reply t) :
    Played s₀ (trail ++ [(t, reply)]) t := by
  constructor
  case toConsistent => exact played.toConsistent.step becomes
  case toSameSizes => exact played.toSameSizes.trans (played.sameSizes becomes)
  case rounds =>
    rw [becomes.rounds, played.rounds, rotations, rotations, rotations, List.countP_append,
      Nat.add_assoc]

/-- A run leads from a consistent session to what has been played since. -/
theorem Consistent.run (consistent : s₀.Consistent) {calls : List Call}
    (run : s₀.run? calls = some trail) : Played s₀ trail (s₀.after trail) :=
  run?_induction (P := Played s₀) ⟨consistent, ⟨rfl, rfl, rfl⟩, rfl⟩
    (fun _ _ _ _ _ _ played becomes => played.step becomes) run

/-- A call is answered, unless the adversary is asked and has no draw left or too many turns behind
it. -/
theorem Consistent.progress (consistent : s.Consistent) (call : Call) :
    (∃ t reply, s.Becomes call reply t) ∨ call = .respond ∧ s.phase = .adversary ∧
      (s.rounds.toNat + 1 = UInt32.size ∨ s.adversary.below64? s.ring.size = none) := by
  by_cases fits : s.Accepts call
  case neg => exact .inl ⟨s, call.refusal, .refused fits⟩
  case pos =>
    cases call with
    | select hole => exact .inl ⟨_, _, .selected fits⟩
    | cycle hole =>
      obtain ⟨ring, cycles, -, -⟩ := consistent.cycles fits
      exact .inl ⟨_, _, .cycled fits cycles⟩
    | commit => exact .inl ⟨_, _, .committed fits⟩
    | respond =>
      have awaited : s.phase = .adversary := fits
      have two := consistent.two_le (by simp [awaited])
      have positive : max s.ring.size 1 = s.ring.size := by omega
      by_cases counted : s.rounds.toNat + 1 < UInt32.size
      case neg =>
        have limit := UInt32.toNat_lt_size s.rounds
        exact .inr ⟨rfl, awaited, .inl (by omega)⟩
      case pos =>
        cases draws : s.adversary.below64? s.ring.size with
        | none => exact .inr ⟨rfl, awaited, .inr rfl⟩
        | some drawn => exact .inl ⟨_, _, .turned awaited (positive.symm ▸ draws) counted⟩

/-- A run that ends early has come to a call of the adversary that is not answered. -/
theorem Consistent.stops (consistent : s₀.Consistent) {calls : List Call}
    (stopped : s₀.run? calls = none) : ∃ done later trail, calls = done ++ .respond :: later ∧
      s₀.run? done = some trail ∧ (s₀.after trail).phase = .adversary ∧
      ((s₀.after trail).rounds.toNat + 1 = UInt32.size ∨
        (s₀.after trail).adversary.below64? (s₀.after trail).ring.size = none) := by
  induction calls generalizing s₀ with
  | nil => contradiction
  | cons call calls ih =>
    rcases consistent.progress call with ⟨t, reply, becomes⟩ | ⟨rfl, stuck⟩
    · have rest : t.run? calls = none := by
        cases run : t.run? calls with
        | none => rfl
        | some later =>
          have whole := run?_cons_eq_some_iff.2 ⟨t, reply, later, becomes, run, rfl⟩
          exact absurd (stopped.symm.trans whole) (by simp)
      obtain ⟨done, later, trail, rfl, run, stuck⟩ := ih (consistent.step becomes) rest
      exact ⟨call :: done, later, (t, reply) :: trail, rfl,
        run?_cons_eq_some_iff.2 ⟨t, reply, trail, becomes, run, rfl⟩, stuck⟩
    · exact ⟨[], calls, [], rfl, rfl, stuck⟩

/-- Any sequence of calls on any session. It is answered to the end while fewer turns than a count
holds have been made and all draws end. The session after it is won exactly when its ring is, its
hand fits its phase, it has the sizes of the start, and it has counted its turns. A further call is
refused exactly when it does not fit, and then changes nothing. The ring changes by a cycle of a
chosen hole and by the turn that is answered. -/
theorem run?_keeps_invariants {s₀ : Session} (started : s₀.Started) (calls : List Call) :
    (∀ trail, s₀.run? calls = some trail →
      (s₀.after trail).Consistent ∧
      (s₀.after trail).ring.size = s₀.ring.size ∧
      (s₀.after trail).ring.palette = s₀.ring.palette ∧
      (s₀.after trail).handSize = s₀.handSize ∧
      (s₀.after trail).rounds.toNat = rotations trail ∧
      ∀ call t reply, (s₀.after trail).step? call = some (t, reply) →
        (s₀.after trail).Effect call reply t) ∧
    (s₀.run? calls = none → ∃ done later trail, calls = done ++ .respond :: later ∧
      s₀.run? done = some trail ∧ (s₀.after trail).phase = .adversary ∧
      (rotations trail + 1 = UInt32.size ∨
        (s₀.after trail).adversary.below64? s₀.ring.size = none)) := by
  have consistent := started.consistent
  have zero : s₀.rounds.toNat = 0 := by rw [started.rounds]; rfl
  constructor
  · intro trail run
    have played := consistent.run run
    refine ⟨played.toConsistent, played.size, played.palette, played.handSize, ?_, ?_⟩
    · rw [played.rounds, zero, Nat.zero_add]
    · exact fun call t reply step => played.effect (step?_eq_some_iff.1 step)
  · intro stopped
    obtain ⟨done, later, trail, split, run, awaited, stuck⟩ := consistent.stops stopped
    have played := consistent.run run
    rw [played.rounds, zero, Nat.zero_add, played.size] at stuck
    exact ⟨done, later, trail, split, run, awaited, stuck⟩

/-- A game on three holes with a hand of one. Calls out of turn are refused, the ring is turned
once, and the second cycle wins. -/
theorem game_of_three_holes : ∃ trail,
    (start (.of [0, 1, 0] 2) 1 (.ofSeed 5)).run? [.respond, .select 0, .select 0, .cycle 0, .commit,
      .commit, .respond, .select 300, .select 2, .cycle 0, .cycle 2] = some trail ∧
    ((start (.of [0, 1, 0] 2) 1 (.ofSeed 5)).after trail).phase = .victory ∧
    ((start (.of [0, 1, 0] 2) 1 (.ofSeed 5)).after trail).ring.isWon ∧
    ((start (.of [0, 1, 0] 2) 1 (.ofSeed 5)).after trail).rounds.toNat = rotations trail := by
  have started : Started (start (.of [0, 1, 0] 2) 1 (.ofSeed 5)) :=
    .known (Ring.sound_of [0, 1, 0] 2) 1 (.ofSeed 5)
  have won : ∃ trail, trail ∈ (start (.of [0, 1, 0] 2) 1 (.ofSeed 5)).run? [.respond, .select 0,
      .select 0, .cycle 0, .commit, .commit, .respond, .select 300, .select 2, .cycle 0,
      .cycle 2] ∧ ((start (.of [0, 1, 0] 2) 1 (.ofSeed 5)).after trail).phase = .victory := by
    decide +kernel
  obtain ⟨trail, run, ended⟩ := won
  obtain ⟨consistent, -, -, -, rounds, -⟩ := (run?_keeps_invariants started _).1 trail run
  exact ⟨trail, run, ended, consistent.victory.1 ended, rounds⟩

end RingLock.Session
