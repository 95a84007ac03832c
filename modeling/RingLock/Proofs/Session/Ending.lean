import Mathlib.Algebra.Order.Floor.Div
import RingLock.Proofs.Session.Play
import RingLock.Proofs.Session.Turns

/-!
# The end of a session

The player of a live session can always finish it. The measure is the number of holes that miss some
color of the palette. A turn of the ring carries the missing holes along, and then a full hand rids
the ring of as many as it holds. So as many turns of the adversary are enough as hands cover all
holes but one, whatever the amounts of the turns are.
-/
namespace RingLock.Session

variable {s t u : Session}

/-- The player can end the game within so many turns of the adversary, whatever their amounts are
and whatever becomes of the generator. -/
def Finishable : ℕ → Session → Prop
  | 0, s => ∃ t, s.Plays t ∧ t.phase = .victory
  | turns + 1, s => ∃ t, s.Plays t ∧ (t.phase = .victory ∨ t.phase = .adversary ∧
      ∀ (adversary : Generator) (amount : ℕ), amount < t.ring.size →
        ∃ u, turnBy? { t with adversary } amount = some u ∧ Finishable turns u)

/-- A run of accepted calls ends the game, and the adversary turns the ring at most so often. -/
def EndsWithin (s : Session) (turns : ℕ) : Prop :=
  ∃ calls trail, s.run? calls = some trail ∧ (∀ cell ∈ trail, cell.2.isAccepted) ∧
    (s.after trail).phase = .victory ∧ rotations trail ≤ turns

/-- The holes that do not show a color. -/
def missing (s : Session) (goal : UInt8) : Finset ℕ :=
  (Finset.range s.ring.size).filter fun i => s.ring.color? i ≠ some goal

theorem mem_missing {goal : UInt8} {i : ℕ} :
    i ∈ s.missing goal ↔ i < s.ring.size ∧ s.ring.color? i ≠ some goal := by
  simp [missing]

/-- A ring on which no hole is missing a color is won. -/
theorem isWon_of_missing {goal : UInt8} (none_missing : s.missing goal = ∅) : s.ring.isWon := by
  refine (Listed.neighboursAgree_iff s.ring.colors).2 fun i hi j hj => ?_
  have shows {i : ℕ} (inside : i < s.ring.size) : s.ring.color? i = some goal := by
    by_contra other
    exact Finset.notMem_empty i (none_missing ▸ mem_missing.2 ⟨inside, other⟩)
  exact (shows hi).trans (shows hj).symm

/-- A turn of the ring carries the missing holes along. -/
theorem card_missing_of_rotate {amount : ℕ} (bounded : amount < s.ring.size)
    (turned : t.ring = s.ring.rotate amount) (goal : UInt8) :
    (t.missing goal).card ≤ (s.missing goal).card := by
  have carried : t.missing goal ⊆ (s.missing goal).image fun i => (i + amount) % s.ring.size := by
    intro j member
    obtain ⟨inside, other⟩ := mem_missing.1 member
    rw [turned, Ring.size_rotate] at inside
    rw [turned, Ring.color?_rotate bounded inside] at other
    refine Finset.mem_image.2 ⟨_, mem_missing.2 ⟨Nat.mod_lt _ (by omega), other⟩, ?_⟩
    rw [Nat.mod_add_mod, show j + (s.ring.size - amount) + amount = j + s.ring.size by omega,
      Nat.add_mod_right, Nat.mod_eq_of_lt inside]
  exact (Finset.card_le_card carried).trans Finset.card_image_le

/-- What a turn of the adversary by any amount comes to, whatever becomes of the generator. -/
structure TurnedBy (s : Session) (amount : ℕ) (adversary : Generator) (t : Session) : Prop
    extends Consistent t, SameSizes s t where
  ring : t.ring = s.ring.rotate amount
  chosen : t.chosen = []
  adversary : t.adversary = adversary
  rounds : t.rounds.toNat = s.rounds.toNat + 1
  phase : t.phase = .victory ∨ t.phase = .select

theorem Consistent.turnedBy (consistent : s.Consistent) (awaited : s.phase = .adversary)
    {adversary : Generator} {amount : ℕ} (turns : turnBy? { s with adversary } amount = some t) :
    s.TurnedBy amount adversary t := by
  unfold turnBy? at turns
  split at turns
  case isFalse => contradiction
  case isTrue counted =>
    obtain rfl := Option.some.inj turns
    constructor
    case toConsistent => exact consistent.turned awaited amount adversary (s.rounds + 1)
    case toSameSizes =>
      constructor
      case size => rw [settle_ring, Ring.size_rotate]
      case palette => rw [settle_ring, Ring.palette_rotate]
      case handSize => rw [settle_handSize]
    case ring => rw [settle_ring]
    case chosen =>
      have filled := consistent.filled
      rw [Filled, awaited] at filled
      rw [settle_chosen]
      exact filled
    case adversary => rw [settle_adversary]
    case rounds =>
      rw [settle_rounds, UInt32.toNat_add, UInt32.toNat_one, Nat.mod_eq_of_lt counted]
    case phase =>
      rw [settle_phase]
      split
      case isTrue => exact .inl rfl
      case isFalse => exact .inr rfl

theorem Finishable.of_victory (won : s.phase = .victory) (turns : ℕ) : s.Finishable turns := by
  cases turns with
  | zero => exact ⟨s, .refl s, won⟩
  | succ turns => exact ⟨s, .refl s, .inl won⟩

theorem Finishable.of_plays {turns : ℕ} (plays : s.Plays t) (finishable : t.Finishable turns) :
    s.Finishable turns := by
  cases turns with
  | zero =>
    obtain ⟨u, goes_on, won⟩ := finishable
    exact ⟨u, plays.trans goes_on, won⟩
  | succ turns =>
    obtain ⟨u, goes_on, ends⟩ := finishable
    exact ⟨u, plays.trans goes_on, ends⟩

/-- In one turn the player rids a ring of as many missing holes as the hand holds. -/
theorem Consistent.exists_improved (consistent : s.Consistent) (fits : s.HandFits)
    (choosing : s.phase = .select) (unchosen : s.chosen = []) {goal : UInt8}
    (proper : goal < s.ring.palette) :
    ∃ t, s.Plays t ∧ (t.phase = .victory ∨
      t.phase = .adversary ∧ (t.missing goal).card ≤ (s.missing goal).card - s.handSize) := by
  have inside : s.missing goal ⊆ Finset.range s.ring.size := Finset.filter_subset ..
  obtain ⟨hand, hand_inside, full, useful⟩ : ∃ hand ⊆ Finset.range s.ring.size,
      hand.card = s.handSize ∧ (s.missing goal ⊆ hand ∨ hand ⊆ s.missing goal) := by
    by_cases few : (s.missing goal).card ≤ s.handSize
    · obtain ⟨hand, holds, within, full⟩ := Finset.exists_subsuperset_card_eq inside few
        (by rw [Finset.card_range]; exact fits.le_size)
      exact ⟨hand, within, full, .inl holds⟩
    · obtain ⟨hand, within, full⟩ := Finset.exists_subset_card_eq (Nat.le_of_not_le few)
      exact ⟨hand, within.trans inside, full, .inr within⟩
  obtain ⟨t, fill, painting, same, chosen⟩ :=
    consistent.exists_hand fits choosing (by simp [held, unchosen]) hand_inside full
  have byte {i : ℕ} (member : i ∈ hand) : i < 256 :=
    (Finset.mem_range.1 (hand_inside member)).trans_le fits.bytes
  obtain ⟨u, paint, outcome⟩ := (fill.stays consistent).exists_painted painting
    (same ▸ proper) fun i member => ⟨byte member, chosen i member⟩
  rcases outcome with won | painted
  · exact ⟨u, fill.trans paint, .inl won⟩
  · refine ⟨_, (fill.trans paint).trans (Becomes.committed painted.phase).plays, .inr ⟨rfl, ?_⟩⟩
    have stays := (fill.trans paint).stays consistent
    -- A hole that still misses the color did so before and is not in the hand.
    have fewer : u.missing goal ⊆ s.missing goal \ hand := by
      intro i member
      obtain ⟨here, other⟩ := mem_missing.1 member
      rw [painted.color?] at other
      split at other
      case isTrue => contradiction
      case isFalse free =>
        rw [same] at other
        exact Finset.mem_sdiff.2 ⟨mem_missing.2 ⟨stays.size ▸ here, other⟩, free⟩
    calc (u.missing goal).card
        ≤ (s.missing goal \ hand).card := Finset.card_le_card fewer
      _ ≤ (s.missing goal).card - s.handSize := by
          rcases useful with all | some
          · rw [Finset.sdiff_eq_empty_iff_subset.2 all]
            exact Nat.zero_le _
          · rw [Finset.card_sdiff_of_subset some, full]

/-- From the turn of the adversary on, the player wins within so many turns if so many hands cover
the holes that miss some color. -/
theorem Consistent.finishable_of_missing {turns : ℕ} (consistent : s.Consistent) (fits : s.HandFits)
    (awaited : s.phase = .adversary) {goal : UInt8} (proper : goal < s.ring.palette)
    (covered : (s.missing goal).card ≤ turns * s.handSize)
    (counted : s.rounds.toNat + turns < UInt32.size) : s.Finishable turns := by
  induction turns generalizing s with
  | zero =>
    have none_missing : s.missing goal = ∅ := by simpa using covered
    exact absurd (isWon_of_missing none_missing) (consistent.mixed (by simp [awaited]))
  | succ turns ih =>
    refine ⟨s, .refl s, .inr ⟨awaited, fun adversary amount bounded => ?_⟩⟩
    have next : s.rounds.toNat + 1 < UInt32.size := by omega
    obtain ⟨t, turns_by⟩ : ∃ t, turnBy? { s with adversary } amount = some t := ⟨_, if_pos next⟩
    refine ⟨t, turns_by, ?_⟩
    have turned := consistent.turnedBy awaited turns_by
    rcases turned.phase with won | choosing
    · exact .of_victory won turns
    have fits_t := fits.of_sameSizes turned.toSameSizes
    obtain ⟨u, plays, outcome⟩ := turned.exists_improved fits_t choosing turned.chosen
      (turned.palette ▸ proper)
    refine .of_plays plays ?_
    rcases outcome with won | ⟨awaited', improved⟩
    · exact .of_victory won turns
    have stays := plays.stays turned.toConsistent
    have carried := card_missing_of_rotate bounded turned.ring goal
    apply ih stays.toConsistent (fits_t.of_sameSizes stays.toSameSizes) awaited'
    · rw [stays.palette, turned.palette]
      exact proper
    · rw [stays.handSize, turned.handSize]
      rw [turned.handSize] at improved
      rw [Nat.succ_mul] at covered
      omega
    · rw [stays.rounds, turned.rounds]
      omega

/-- As many turns as hands that cover all holes but one are enough. -/
theorem Consistent.finishable (consistent : s.Consistent) (fits : s.HandFits)
    (counted : s.rounds.toNat + s.ring.size < UInt32.size) :
    s.Finishable ((s.ring.size - 1) ⌈/⌉ s.handSize) := by
  obtain ⟨t, plays, outcome⟩ := consistent.exists_ended fits
  refine .of_plays plays ?_
  rcases outcome with won | awaited
  · exact .of_victory won _
  have stays := plays.stays consistent
  have two := stays.two_le (by simp [awaited])
  have there : 0 < t.ring.colors.length := Nat.lt_of_lt_of_le Nat.two_pos two
  -- The color of the first hole is missing on the others at most.
  have first : 0 ∈ Finset.range t.ring.size := Finset.mem_range.2 there
  have others : t.missing t.ring.colors[0] ⊆ (Finset.range t.ring.size).erase 0 := by
    intro i member
    obtain ⟨inside, other⟩ := mem_missing.1 member
    refine Finset.mem_erase.2 ⟨fun here => other ?_, Finset.mem_range.2 inside⟩
    rw [here]
    exact List.getElem?_eq_getElem there
  have few := Finset.card_le_card others
  rw [Finset.card_erase_of_mem first, Finset.card_range, stays.size] at few
  have positive : 0 < s.handSize := fits.one_le
  have enough : s.ring.size - 1 ≤ (s.ring.size - 1) ⌈/⌉ s.handSize * s.handSize := by
    have := le_smul_ceilDiv (b := s.ring.size - 1) positive
    rwa [smul_eq_mul, Nat.mul_comm] at this
  have turns_le : (s.ring.size - 1) ⌈/⌉ s.handSize ≤ s.ring.size := by
    rw [ceilDiv_le_iff_le_smul positive, smul_eq_mul]
    exact (Nat.sub_le ..).trans (Nat.le_mul_of_pos_left _ positive)
  apply stays.finishable_of_missing (fits.of_sameSizes stays.toSameSizes) awaited
    (stays.sound.2 _ (List.getElem_mem there))
  · rw [stays.handSize]
    exact few.trans enough
  · rw [stays.rounds]
    omega

/-- What the player does without the adversary turns no ring. -/
theorem rotations_of_accepted {trail : List (Session × Reply)}
    (accepted : ∀ cell ∈ trail, cell.2 = .accepted true) : rotations trail = 0 := by
  refine List.countP_eq_zero.2 fun cell member => ?_
  rw [accepted cell member]
  exact Bool.false_ne_true

theorem EndsWithin.of_plays {turns : ℕ} (plays : s.Plays t) (ends : t.EndsWithin turns) :
    s.EndsWithin turns := by
  obtain ⟨calls, trail, run, accepted, rfl⟩ := plays
  obtain ⟨later, rest, goes_on, accepted', won, count⟩ := ends
  refine ⟨calls ++ later, trail ++ rest, run?_append run goes_on, ?_, ?_, ?_⟩
  · intro cell member
    rcases List.mem_append.1 member with mine | other
    · rw [accepted cell mine]
      rfl
    · exact accepted' cell other
  · rw [after_append]
    exact won
  · rw [rotations_append, rotations_of_accepted accepted, Nat.zero_add]
    exact count

theorem EndsWithin.of_victory (won : s.phase = .victory) (turns : ℕ) : s.EndsWithin turns :=
  ⟨[], [], rfl, nofun, won, Nat.zero_le turns⟩

theorem EndsWithin.of_turn {turns amount : ℕ}
    (answer : s.step? .respond = some (t, .turned (some amount))) (ends : t.EndsWithin turns) :
    s.EndsWithin (turns + 1) := by
  obtain ⟨calls, trail, run, accepted, won, count⟩ := ends
  refine ⟨.respond :: calls, (t, .turned (some amount)) :: trail, ?_, ?_, won, ?_⟩
  · exact run?_cons_eq_some_iff.2 ⟨t, _, trail, step?_eq_some_iff.1 answer, run, rfl⟩
  · exact List.forall_mem_cons.2 ⟨rfl, accepted⟩
  · exact (rotations_append [(t, .turned (some amount))] trail).trans_le
      ((Nat.add_comm ..).trans_le (Nat.succ_le_succ count))

/-- With a generator whose draws end, a game that can be finished is finished by a run. -/
theorem Finishable.endsWithin {turns : ℕ} (consistent : s.Consistent)
    (finishable : s.Finishable turns)
    (draws : s.adversary.Yields (Generator.below64? s.ring.size) turns) :
    s.EndsWithin turns := by
  induction turns generalizing s with
  | zero =>
    obtain ⟨t, plays, won⟩ := finishable
    exact .of_plays plays (.of_victory won 0)
  | succ turns ih =>
    obtain ⟨t, plays, outcome⟩ := finishable
    refine .of_plays plays ?_
    rcases outcome with won | ⟨awaited, answers⟩
    · exact .of_victory won _
    have stays := plays.stays consistent
    obtain ⟨⟨amount, adversary⟩, draw, draws⟩ := draws
    rw [← stays.size, ← stays.adversary] at draw
    obtain ⟨u, turns_by, finishable⟩ := answers adversary amount (Generator.below64?_lt draw)
    have turned := stays.turnedBy awaited turns_by
    have two := stays.two_le (by simp [awaited])
    have respond : t.step? .respond = some (u, .turned (some amount)) := by
      have positive : max t.ring.size 1 = t.ring.size := by omega
      rw [step?, respond?, if_pos awaited, positive, Option.mem_def.1 draw]
      simp [turns_by]
    refine .of_turn respond (ih turned.toConsistent finishable ?_)
    rw [turned.size, turned.adversary, stays.size]
    exact draws

/-- From every session of a game whose hand can be filled, the player can come to the end within as
many turns of the adversary as it takes hands to cover all holes but one. This is so against every
amount by which the adversary may turn the ring, and with its own generator wherever the draws end
that are to be made. The sessions of checked configurations are of this kind. -/
theorem reached_finishable :
    (∀ (c : Config) (s : Session), (ofConfig c).run = some (.ok s) → s.HandFits) ∧
    ∀ s : Session, s.Reached → s.HandFits → s.rounds.toNat + s.ring.size < UInt32.size →
      s.Finishable ((s.ring.size - 1) ⌈/⌉ s.handSize) ∧
      (s.adversary.Yields (Generator.below64? s.ring.size)
          ((s.ring.size - 1) ⌈/⌉ s.handSize) →
        s.EndsWithin ((s.ring.size - 1) ⌈/⌉ s.handSize)) := by
  constructor
  · intro c s built
    obtain ⟨one, le, short, -, -⟩ := Config.bounds_of_check (ofConfig_eq_ok built).1
    have fits := fits_ofConfig built
    exact ⟨fits.handSize ▸ one, by rw [fits.handSize, fits.size]; exact le,
      by rw [fits.size]; omega⟩
  · intro s reached fits counted
    have finishable := reached.consistent.finishable fits counted
    exact ⟨finishable, finishable.endsWithin reached.consistent⟩

/-- Three holes of three colors and a hand of one, in which a hole was chosen first. -/
def oneChosen : Session := ⟨⟨[0, 1, 2], 3⟩, .modify, 1, [2], .ofSeed 5, 0⟩

theorem oneChosen_ends :
    oneChosen.Reached ∧ oneChosen.HandFits ∧ oneChosen.Finishable 2 ∧ oneChosen.EndsWithin 2 := by
  have started : Started (start ⟨[0, 1, 2], 3⟩ 1 (.ofSeed 5)) :=
    .known (show Ring.Sound ⟨[0, 1, 2], 3⟩ from ⟨by decide, by simp⟩) 1 (.ofSeed 5)
  have reached : oneChosen.Reached := .step (.start started)
    (show (start ⟨[0, 1, 2], 3⟩ 1 (.ofSeed 5)).step? (.select 2) =
      some (oneChosen, .accepted true) by decide +kernel)
  have fits : oneChosen.HandFits := ⟨by decide, by decide, by decide⟩
  obtain ⟨finishable, ends⟩ := reached_finishable.2 oneChosen reached fits (by decide)
  have draws : oneChosen.adversary.Yields (Generator.below64? 3) 2 := by decide +kernel
  exact ⟨reached, fits, finishable, ends draws⟩

end RingLock.Session
