import RingLock.Session

/-!
# The rules of a session

What each call makes of a session, one rule for every kind of call that is accepted and one for all
that are refused. A step of a session follows a rule, and what every rule preserves holds at the end
of every run.
-/
namespace RingLock

/-- The answer to a call that does not fit the session. -/
def Session.Call.refusal : Call → Reply
  | .select _ => .accepted false
  | .cycle _ => .accepted false
  | .commit => .accepted false
  | .respond => .turned none

/-- Whether an answer tells of a turn of the ring. -/
def Session.Reply.isTurn : Reply → Bool
  | .turned (some _) => true
  | _ => false

/-- Whether an answer tells that the call was carried out. -/
def Session.Reply.isAccepted : Reply → Bool
  | .accepted yes => yes
  | .turned amount => amount.isSome

namespace Session

variable {s t : Session} {call : Call} {reply : Reply}

/-- Whether a call fits the session as it is. -/
def Accepts (s : Session) : Call → Prop
  | .select hole => s.Selectable hole
  | .cycle hole => s.Recolorable hole
  | .commit => s.phase = .modify
  | .respond => s.phase = .adversary

/-- A call makes one session of another and is answered. -/
inductive Becomes (s : Session) : Call → Reply → Session → Prop
  | refused {call : Call} (unfit : ¬s.Accepts call) : Becomes s call call.refusal s
  | selected {hole : Nat} (selectable : s.Selectable hole) :
    Becomes s (.select hole) (.accepted true)
      { s with
        chosen := s.chosen ++ [UInt8.ofNat hole]
        phase := if s.handSize ≤ s.chosen.length + 1 then .modify else .select }
  | cycled {hole : Nat} {ring : Ring} (recolorable : s.Recolorable hole)
      (cycles : s.ring.cycle? hole = some ring) :
    Becomes s (.cycle hole) (.accepted true) (settle { s with ring })
  | committed (full : s.phase = .modify) :
    Becomes s .commit (.accepted true) { s with chosen := [], phase := .adversary }
  | turned {amount : Nat} {adversary : Generator} (awaited : s.phase = .adversary)
      (draws : s.adversary.below64? (max s.ring.size 1) = some (amount, adversary))
      (counted : s.rounds.toNat + 1 < UInt32.size) :
    Becomes s .respond (.turned (some amount)) (settle { s with
      ring := s.ring.rotate amount
      phase := .select
      adversary := adversary
      rounds := s.rounds + 1 })

/-- A refused call changes nothing. -/
theorem step?_of_not_accepts (unfit : ¬s.Accepts call) : s.step? call = some (s, call.refusal) := by
  cases call with
  | select hole => simp only [step?, select_of_not_selectable unfit, Call.refusal]
  | cycle hole => simp only [step?, cycle?_of_not_recolorable unfit, Call.refusal, Option.map_some]
  | commit => simp only [step?, commit, Call.refusal, if_neg (show ¬s.phase = .modify from unfit)]
  | respond => simp only [step?, respond?_of_phase_ne unfit, Call.refusal, Option.map_some]

/-- The steps of a session are those of its rules. -/
theorem step?_eq_some_iff : s.step? call = some (t, reply) ↔ s.Becomes call reply t := by
  constructor
  · intro step
    by_cases fits : s.Accepts call
    case neg =>
      rw [step?_of_not_accepts fits] at step
      cases step
      exact .refused fits
    case pos =>
      cases call with
      | select hole =>
        simp only [step?, select, if_pos (show s.Selectable hole from fits), List.length_append,
          List.length_singleton] at step
        cases step
        exact .selected fits
      | cycle hole =>
        simp only [step?, cycle?, if_pos (show s.Recolorable hole from fits), Option.map_map,
          Option.map_eq_some_iff] at step
        obtain ⟨ring, cycles, same⟩ := step
        cases same
        exact .cycled fits cycles
      | commit =>
        simp only [step?, commit, if_pos (show s.phase = .modify from fits)] at step
        cases step
        exact .committed fits
      | respond =>
        simp only [step?, respond?, if_pos (show s.phase = .adversary from fits),
          Option.map_eq_some_iff] at step
        obtain ⟨⟨next, turned⟩, answer, same⟩ := step
        cases same
        obtain ⟨⟨amount, adversary⟩, draws, answer⟩ := Option.bind_eq_some_iff.1 answer
        obtain ⟨later, turns, same⟩ := Option.bind_eq_some_iff.1 answer
        cases same
        unfold turnBy? at turns
        split at turns
        case isFalse => contradiction
        case isTrue counted =>
          cases turns
          exact .turned fits draws counted
  · intro becomes
    cases becomes with
    | refused unfit => exact step?_of_not_accepts unfit
    | selected selectable => simp [step?, select, selectable]
    | cycled recolorable cycles => simp [step?, cycle?, recolorable, cycles]
    | committed full => simp [step?, commit, full]
    | turned awaited draws counted => simp [step?, respond?, turnBy?, awaited, draws, counted]

@[simp] theorem settle_handSize (s : Session) : s.settle.handSize = s.handSize := by
  unfold settle; split <;> rfl

theorem settle_phase (s : Session) :
    s.settle.phase = if s.ring.isWon then .victory else s.phase := by
  unfold settle
  split <;> rfl

/-- The session in which a trail ends. -/
def after (s : Session) : List (Session × Reply) → Session
  | [] => s
  | (t, _) :: later => after t later

/-- How many turns of the ring a trail tells of. -/
def rotations (trail : List (Session × Reply)) : Nat := trail.countP fun cell => cell.2.isTurn

theorem run?_cons_eq_some_iff {calls : List Call} {trail : List (Session × Reply)} :
    s.run? (call :: calls) = some trail ↔ ∃ t reply later, s.Becomes call reply t ∧
      t.run? calls = some later ∧ trail = (t, reply) :: later := by
  simp only [run?, Option.bind_eq_bind, Option.bind_eq_some_iff, ← step?_eq_some_iff]
  constructor
  · intro ⟨⟨t, reply⟩, step, later, rest, same⟩
    exact ⟨t, reply, later, step, rest, (Option.some.inj same).symm⟩
  · intro ⟨t, reply, later, step, rest, same⟩
    exact ⟨(t, reply), step, later, rest, congrArg some same.symm⟩

theorem run?_append {first last : List Call} {trail later : List (Session × Reply)}
    (run : s.run? first = some trail) (next : (s.after trail).run? last = some later) :
    s.run? (first ++ last) = some (trail ++ later) := by
  induction first generalizing s trail with
  | nil =>
    cases run
    exact next
  | cons call first ih =>
    obtain ⟨t, reply, rest, becomes, goes_on, rfl⟩ := run?_cons_eq_some_iff.1 run
    exact run?_cons_eq_some_iff.2 ⟨t, reply, rest ++ later, becomes, ih goes_on next, rfl⟩

theorem after_append (trail later : List (Session × Reply)) :
    s.after (trail ++ later) = (s.after trail).after later := by
  induction trail generalizing s with
  | nil => rfl
  | cons cell trail ih => exact ih

theorem rotations_append (trail later : List (Session × Reply)) :
    rotations (trail ++ later) = rotations trail + rotations later := List.countP_append

/-- What holds at the start of a run and is kept by every step of its calls, whatever has happened
before, holds at its end. -/
theorem run?_induction {P : List (Session × Reply) → Session → Prop} {calls : List Call}
    (start : P [] s)
    (step : ∀ trail s call reply t, call ∈ calls → P trail s → s.Becomes call reply t →
      P (trail ++ [(t, reply)]) t)
    {trail : List (Session × Reply)} (run : s.run? calls = some trail) :
    P trail (s.after trail) := by
  induction calls generalizing s trail P with
  | nil =>
    cases run
    exact start
  | cons call calls ih =>
    obtain ⟨t, reply, later, becomes, rest, rfl⟩ := run?_cons_eq_some_iff.1 run
    -- The step just taken stays in front of every trail that follows.
    apply ih (P := fun trail => P ((t, reply) :: trail))
      (step [] s call reply t List.mem_cons_self start becomes) _ rest
    intro trail s other answer next later
    exact step ((t, reply) :: trail) s other answer next (List.mem_cons_of_mem call later)

end Session

end RingLock
