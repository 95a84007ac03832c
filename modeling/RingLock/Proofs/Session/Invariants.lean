import RingLock.Proofs.Ring
import RingLock.Proofs.Session.Rules

/-!
# Invariants of sessions

A session is won exactly when its ring is, and the hand holds distinct holes of the ring, as many as
the phase calls for. Every step keeps this. The ring changes by cycles of chosen holes and by turns
that are answered with their amount, and a refused call changes nothing at all.
-/
namespace RingLock.Session

variable {s t : Session} {call : Call} {reply : Reply}

/-- As many holes are chosen as the phase calls for. A hand of size 0 is full with one hole. -/
def Filled (s : Session) : Prop :=
  match s.phase with
  | .select => s.chosen.length < max s.handSize 1
  | .modify => s.chosen.length = max s.handSize 1
  | .adversary => s.chosen = []
  | .victory => s.chosen.length ≤ max s.handSize 1

/-- What holds before it is settled whether the ring is won. -/
structure Playable (s : Session) : Prop where
  sound : s.ring.Sound
  distinct : s.chosen.Nodup
  inside : ∀ x ∈ s.chosen, x.toNat < min s.ring.size 256
  filled : s.Filled

/-- What holds after every call. -/
structure Consistent (s : Session) : Prop extends Playable s where
  victory : s.phase = .victory ↔ s.ring.isWon

/-- What a call may do to a session, given its answer. -/
structure Effect (s : Session) (call : Call) (reply : Reply) (t : Session) : Prop where
  /-- Exactly the calls that do not fit are refused. -/
  unfit : reply = call.refusal ↔ ¬s.Accepts call
  /-- A refused call changes nothing. -/
  refused : reply = .accepted false ∨ reply = .turned none → t = s
  /-- An accepted cycle advances a chosen hole. -/
  cycled : ∀ hole, call = .cycle hole → reply = .accepted true →
    hole < 256 ∧ UInt8.ofNat hole ∈ s.chosen ∧ s.ring.Advanced hole t.ring
  /-- An amount is the answer of the adversary alone, and the ring has turned by it. -/
  turned : ∀ amount, reply = .turned (some amount) →
    call = .respond ∧ amount < s.ring.size ∧ s.ring.Turned amount t.ring
  /-- Nothing else changes the ring. -/
  kept : t.ring = s.ring ∨ (∃ hole, call = .cycle hole ∧ reply = .accepted true) ∨
    ∃ amount, reply = .turned (some amount)

theorem Filled.length_le (filled : s.Filled) : s.chosen.length ≤ max s.handSize 1 := by
  unfold Filled at filled
  split at filled
  case h_1 => exact filled.le
  case h_2 => exact filled.le
  case h_3 => simp [filled]
  case h_4 => exact filled

/-- Settling a session that is not over tells whether it is won. -/
theorem Playable.settle (playable : s.Playable) (unfinished : s.phase ≠ .victory) :
    s.settle.Consistent := by
  by_cases won : s.ring.isWon
  case pos =>
    rw [Session.settle, if_pos won]
    exact { sound := playable.sound, distinct := playable.distinct, inside := playable.inside,
            filled := playable.filled.length_le, victory := by simp [won] }
  case neg =>
    rw [Session.settle, if_neg won]
    exact ⟨playable, by simp [unfinished, won]⟩

/-- Every session starts consistent. -/
theorem consistent_start {ring : Ring} (sound : ring.Sound) (handSize : ℕ) (adversary : Generator) :
    (start ring handSize adversary).Consistent := by
  have playable : Playable ⟨ring, .select, handSize, [], adversary, 0⟩ :=
    ⟨sound, List.nodup_nil, by simp, Nat.lt_of_lt_of_le Nat.one_pos (Nat.le_max_right ..)⟩
  exact playable.settle (fun ended => by contradiction)

theorem Consistent.mixed (consistent : s.Consistent) (unfinished : s.phase ≠ .victory) :
    ¬s.ring.isWon := mt consistent.victory.2 unfinished

/-- A ring that is not won has two holes at least. -/
theorem Consistent.two_le (consistent : s.Consistent) (unfinished : s.phase ≠ .victory) :
    2 ≤ s.ring.size := by
  by_contra short
  apply consistent.mixed unfinished
  unfold Ring.size at short
  unfold Ring.isWon
  match s.ring.colors, short with
  | [], _ => rfl
  | [_], _ => rfl
  | _ :: _ :: _, short => exact absurd (by simp) short

theorem Consistent.selected (consistent : s.Consistent) {hole : ℕ}
    (selectable : s.Selectable hole) :
    Consistent { s with
      chosen := s.chosen ++ [UInt8.ofNat hole]
      phase := if s.handSize ≤ s.chosen.length + 1 then .modify else .select } := by
  obtain ⟨choosing, inside, byte, fresh⟩ := selectable
  have room : s.chosen.length < max s.handSize 1 := by
    have filled := consistent.filled
    rwa [Filled, choosing] at filled
  have mixed : ¬s.ring.isWon := consistent.mixed (by simp [choosing])
  constructor
  case toPlayable =>
    constructor
    case sound => exact consistent.sound
    case distinct =>
      rw [← List.concat_eq_append]
      exact consistent.distinct.concat fresh
    case inside =>
      intro x member
      rcases List.mem_append.1 member with old | new
      · exact consistent.inside x old
      · rw [List.mem_singleton.1 new, UInt8.toNat_ofNat_of_lt' byte]
        exact Nat.lt_min.2 ⟨inside, byte⟩
    case filled =>
      by_cases full : s.handSize ≤ s.chosen.length + 1
      · simp only [Filled, if_pos full, List.length_append, List.length_singleton]
        omega
      · simp only [Filled, if_neg full, List.length_append, List.length_singleton]
        omega
  case victory =>
    by_cases full : s.handSize ≤ s.chosen.length + 1
    · simp [full, mixed]
    · simp [full, mixed]

/-- Cycling a chosen hole succeeds and keeps the ring sound. -/
theorem Consistent.cycles (consistent : s.Consistent) {hole : ℕ}
    (recolorable : s.Recolorable hole) :
    ∃ ring, s.ring.cycle? hole = some ring ∧ ring.Sound ∧ s.ring.Advanced hole ring := by
  obtain ⟨-, byte, held⟩ := recolorable
  have inside := consistent.inside _ held
  rw [UInt8.toNat_ofNat_of_lt' byte] at inside
  exact consistent.sound.cycle?_eq_some (Nat.lt_min.1 inside).1

/-- A turn by any amount keeps a session consistent, whatever becomes of the generator and of the
count. -/
theorem Consistent.turned (consistent : s.Consistent) (awaited : s.phase = .adversary) (amount : ℕ)
    (adversary : Generator) (rounds : UInt32) : Consistent (settle { s with
      ring := s.ring.rotate amount
      phase := .select
      adversary := adversary
      rounds := rounds }) := by
  have none_chosen : s.chosen = [] := by
    have filled := consistent.filled
    rwa [Filled, awaited] at filled
  refine Playable.settle ⟨consistent.sound.rotate amount, consistent.distinct, ?_, ?_⟩ (by simp)
  · simp [none_chosen]
  · simp [Filled, none_chosen]

/-- Every rule keeps a session consistent. -/
theorem Consistent.step (consistent : s.Consistent) (becomes : s.Becomes call reply t) :
    t.Consistent := by
  cases becomes with
  | refused => exact consistent
  | selected selectable => exact consistent.selected selectable
  | @cycled hole ring recolorable cycles =>
    obtain ⟨next, run, sound, advanced⟩ := consistent.cycles recolorable
    obtain rfl := Option.some.inj (cycles.symm.trans run)
    have playable : Playable { s with ring } := by
      refine ⟨sound, consistent.distinct, fun x held => ?_, consistent.filled⟩
      rw [show Ring.size _ = s.ring.size from advanced.size]
      exact consistent.inside x held
    exact playable.settle (by simp [recolorable.1])
  | committed full =>
    have mixed : ¬s.ring.isWon := consistent.mixed (by simp [full])
    exact ⟨⟨consistent.sound, List.nodup_nil, by simp, rfl⟩, by simp [mixed]⟩
  | turned awaited => exact consistent.turned awaited ..

/-- What a rule does follows from its answer. -/
theorem Consistent.effect (consistent : s.Consistent) (becomes : s.Becomes call reply t) :
    s.Effect call reply t := by
  cases becomes with
  | refused unfit =>
    constructor
    case unfit => simp [unfit]
    case refused => exact fun _ => rfl
    case cycled =>
      rintro hole rfl answer
      exact absurd answer (by simp [Call.refusal])
    case turned =>
      intro amount answer
      cases call <;> simp [Call.refusal] at answer
    case kept => exact .inl rfl
  | selected selectable =>
    exact ⟨by simp [Call.refusal, Accepts, selectable], by simp, by simp, by simp, .inl rfl⟩
  | @cycled hole ring recolorable cycles =>
    obtain ⟨next, run, -, advanced⟩ := consistent.cycles recolorable
    obtain rfl := Option.some.inj (cycles.symm.trans run)
    constructor
    case unfit => simp [Call.refusal, Accepts, recolorable]
    case refused => simp
    case cycled =>
      rintro _ ⟨rfl⟩ -
      rw [settle_ring]
      exact ⟨recolorable.2.1, recolorable.2.2, advanced⟩
    case turned => simp
    case kept => exact .inr (.inl ⟨hole, rfl, rfl⟩)
  | committed full =>
    exact ⟨by simp [Call.refusal, Accepts, full], by simp, by simp, by simp, .inl rfl⟩
  | @turned amount adversary awaited draws counted =>
    have two := consistent.two_le (by simp [awaited])
    have bounded : amount < s.ring.size := by
      have below := Generator.below64?_lt draws
      omega
    constructor
    case unfit => simp [Call.refusal, Accepts, awaited]
    case refused => simp
    case cycled => simp
    case turned =>
      rintro _ ⟨rfl⟩
      rw [settle_ring]
      exact ⟨rfl, bounded, Ring.turned_rotate ..⟩
    case kept => exact .inr (.inr ⟨amount, rfl⟩)

end RingLock.Session
