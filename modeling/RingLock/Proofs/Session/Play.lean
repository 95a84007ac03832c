import RingLock.Proofs.Session.Runs

/-!
# What the player can do in a turn

The calls of the player alone, where each of them is accepted. They leave the generator and the
count of turns as they are. Any set of holes that holds the chosen ones and has the size of the hand
can be chosen, and then any of its holes can be given any color of the palette, unless the game ends
on the way. So the player always comes to the end of the turn or of the game.
-/
namespace RingLock.Session

variable {s t u : Session}

/-- Some calls of the player, all accepted, lead from one session to another. -/
def Plays (s t : Session) : Prop :=
  ∃ calls trail, s.run? calls = some trail ∧ (∀ cell ∈ trail, cell.2 = .accepted true) ∧
    s.after trail = t

/-- A hand can be filled: it holds a hole at least, no more than there are, and holes are bytes. -/
structure HandFits (s : Session) : Prop where
  one_le : 1 ≤ s.handSize
  le_size : s.handSize ≤ s.ring.size
  bytes : s.ring.size ≤ 256

theorem Plays.refl (s : Session) : s.Plays s := ⟨[], [], rfl, nofun, rfl⟩

theorem Plays.trans (first : s.Plays t) (next : t.Plays u) : s.Plays u := by
  obtain ⟨calls, trail, run, accepted, rfl⟩ := first
  obtain ⟨later, rest, goes_on, accepted', rfl⟩ := next
  refine ⟨calls ++ later, trail ++ rest, run?_append run goes_on, ?_, after_append trail rest⟩
  exact fun cell member => (List.mem_append.1 member).elim (accepted cell) (accepted' cell)

theorem Becomes.plays {call : Call} (becomes : s.Becomes call (.accepted true) t) : s.Plays t :=
  ⟨[call], [(t, .accepted true)], run?_cons_eq_some_iff.2 ⟨t, _, [], becomes, rfl, rfl⟩,
    by simp, rfl⟩

/-- What a session keeps while the player plays. -/
structure Stays (s t : Session) : Prop extends Consistent t, SameSizes s t where
  adversary : t.adversary = s.adversary
  rounds : t.rounds = s.rounds

theorem Becomes.stays {call : Call} {reply : Reply} (consistent : s.Consistent)
    (becomes : s.Becomes call reply t) (accepted : reply = .accepted true) : s.Stays t := by
  have kept : t.adversary = s.adversary ∧ t.rounds = s.rounds := by
    cases becomes with
    | refused => exact ⟨rfl, rfl⟩
    | selected => exact ⟨rfl, rfl⟩
    | cycled => exact ⟨settle_adversary _, settle_rounds _⟩
    | committed => exact ⟨rfl, rfl⟩
    | turned => contradiction
  exact ⟨consistent.step becomes, consistent.sameSizes becomes, kept.1, kept.2⟩

theorem Stays.trans (first : s.Stays t) (next : t.Stays u) : s.Stays u where
  toConsistent := next.toConsistent
  toSameSizes := first.toSameSizes.trans next.toSameSizes
  adversary := next.adversary.trans first.adversary
  rounds := next.rounds.trans first.rounds

theorem Plays.stays (consistent : s.Consistent) (plays : s.Plays t) : s.Stays t := by
  obtain ⟨calls, trail, run, accepted, rfl⟩ := plays
  induction calls generalizing s trail with
  | nil =>
    cases run
    exact ⟨consistent, ⟨rfl, rfl, rfl⟩, rfl, rfl⟩
  | cons call calls ih =>
    obtain ⟨t, reply, later, becomes, rest, rfl⟩ := run?_cons_eq_some_iff.1 run
    obtain ⟨first, accepted⟩ := List.forall_mem_cons.1 accepted
    have stays := becomes.stays consistent first
    exact stays.trans (ih stays.toConsistent later rest accepted)

theorem HandFits.of_sameSizes (fits : s.HandFits) (same : s.SameSizes t) : t.HandFits where
  one_le := same.handSize ▸ fits.one_le
  le_size := same.handSize ▸ same.size ▸ fits.le_size
  bytes := same.size ▸ fits.bytes

/-- The player can choose any holes that are not chosen yet, if they fill the hand. -/
theorem plays_filled {holes : List ℕ} (choosing : s.phase = .select) (some_left : holes ≠ [])
    (distinct : (s.chosen ++ holes.map UInt8.ofNat).Nodup)
    (inside : ∀ i ∈ holes, i < s.ring.size ∧ i < 256)
    (fills : s.chosen.length + holes.length = s.handSize) :
    s.Plays { s with chosen := s.chosen ++ holes.map UInt8.ofNat, phase := .modify } := by
  induction holes generalizing s with
  | nil => contradiction
  | cons i holes ih =>
    obtain ⟨⟨here, byte⟩, inside⟩ := List.forall_mem_cons.1 inside
    rw [List.length_cons] at fills
    have fresh : UInt8.ofNat i ∉ s.chosen := fun held =>
      (List.nodup_append.1 distinct).2.2 _ held _ (List.mem_cons_self ..) rfl
    have first := (Becomes.selected (s := s) ⟨choosing, here, byte, fresh⟩).plays
    by_cases last : holes = []
    · subst last
      rwa [if_pos (by simpa using fills.ge)] at first
    · have more : ¬s.handSize ≤ s.chosen.length + 1 := by
        have := List.length_pos_iff.2 last
        omega
      rw [if_neg more] at first
      have count : (s.chosen ++ [UInt8.ofNat i]).length + holes.length = s.handSize := by
        rw [List.length_append, List.length_singleton]
        omega
      rw [List.map_cons, List.append_cons] at distinct ⊢
      exact first.trans (ih (s := { s with
        chosen := s.chosen ++ [UInt8.ofNat i]
        phase := .select }) rfl last distinct inside count)

/-- The chosen holes. -/
def held (s : Session) : Finset ℕ := (s.chosen.map UInt8.toNat).toFinset

theorem mem_held {i : ℕ} (byte : i < 256) : i ∈ s.held ↔ UInt8.ofNat i ∈ s.chosen := by
  simp only [held, List.mem_toFinset, List.mem_map]
  constructor
  · rintro ⟨x, chosen, rfl⟩
    rwa [UInt8.ofNat_toNat]
  · exact fun chosen => ⟨_, chosen, UInt8.toNat_ofNat_of_lt' byte⟩

theorem Consistent.held_subset (consistent : s.Consistent) : s.held ⊆ Finset.range s.ring.size := by
  intro i member
  obtain ⟨x, chosen, rfl⟩ := List.mem_map.1 (List.mem_toFinset.1 member)
  exact Finset.mem_range.2 (Nat.lt_min.1 (consistent.inside x chosen)).1

theorem Consistent.card_held (consistent : s.Consistent) : s.held.card = s.chosen.length := by
  have distinct : (s.chosen.map UInt8.toNat).Nodup :=
    consistent.distinct.map fun _ _ same => UInt8.toNat_inj.1 same
  rw [held, List.toFinset_card_of_nodup distinct, List.length_map]

/-- The player can fill the hand to any set that holds the holes chosen so far. -/
theorem Consistent.exists_hand (consistent : s.Consistent) (fits : s.HandFits)
    (choosing : s.phase = .select) {holes : Finset ℕ} (keeps : s.held ⊆ holes)
    (inside : holes ⊆ Finset.range s.ring.size) (fills : holes.card = s.handSize) :
    ∃ t, s.Plays t ∧ t.phase = .modify ∧ t.ring = s.ring ∧
      ∀ i ∈ holes, UInt8.ofNat i ∈ t.chosen := by
  have size_of {i : ℕ} (member : i ∈ holes) : i < s.ring.size := Finset.mem_range.1 (inside member)
  have byte_of {i : ℕ} (member : i ∈ holes) : i < 256 := (size_of member).trans_le fits.bytes
  let others := (holes \ s.held).toList
  have mem_others {i : ℕ} : i ∈ others ↔ i ∈ holes ∧ i ∉ s.held := by
    rw [Finset.mem_toList, Finset.mem_sdiff]
  have count : s.chosen.length + others.length = s.handSize := by
    rw [Finset.length_toList, Finset.card_sdiff_of_subset keeps, ← consistent.card_held, ← fills]
    have := Finset.card_le_card keeps
    omega
  have room : s.chosen.length < max s.handSize 1 := by
    have filled := consistent.filled
    rwa [Filled, choosing] at filled
  have some_left : others ≠ [] := by
    rw [← List.length_pos_iff]
    have := fits.one_le
    omega
  have distinct : (s.chosen ++ others.map UInt8.ofNat).Nodup := by
    refine List.nodup_append.2 ⟨consistent.distinct, ?_, ?_⟩
    · refine (holes \ s.held).nodup_toList.map_on fun i hi j hj same => ?_
      have values := congrArg UInt8.toNat same
      rwa [UInt8.toNat_ofNat_of_lt' (byte_of (mem_others.1 hi).1),
        UInt8.toNat_ofNat_of_lt' (byte_of (mem_others.1 hj).1)] at values
    · rintro x chosen _ added rfl
      obtain ⟨i, hi, rfl⟩ := List.mem_map.1 added
      exact (mem_others.1 hi).2 ((mem_held (byte_of (mem_others.1 hi).1)).2 chosen)
  refine ⟨_, plays_filled choosing some_left distinct (fun i hi => ?_) count, rfl, rfl, ?_⟩
  · exact ⟨size_of (mem_others.1 hi).1, byte_of (mem_others.1 hi).1⟩
  · intro i member
    by_cases already : i ∈ s.held
    · exact List.mem_append_left _ ((mem_held (byte_of member)).1 already)
    · exact List.mem_append_right _ (List.mem_map_of_mem (mem_others.2 ⟨member, already⟩))

/-- What painting some holes with a color comes to, if the game does not end on the way. -/
structure Painted (s : Session) (goal : UInt8) (holes : Finset ℕ) (t : Session) : Prop where
  phase : t.phase = .modify
  chosen : t.chosen = s.chosen
  color? : ∀ i, t.ring.color? i = if i ∈ holes then some goal else s.ring.color? i

/-- Cycling a chosen hole through the palette brings any color there, or ends the game. -/
theorem Consistent.exists_cycled (consistent : s.Consistent) (painting : s.phase = .modify)
    {i : ℕ} (byte : i < 256) (chosen : UInt8.ofNat i ∈ s.chosen) {goal color : UInt8}
    (shown : s.ring.color? i = some color) (proper : goal < s.ring.palette) {steps : ℕ}
    (leads : (color.toNat + steps) % s.ring.palette.toNat = goal.toNat) :
    ∃ t, s.Plays t ∧ (t.phase = .victory ∨ s.Painted goal {i} t) := by
  induction steps generalizing s color with
  | zero =>
    have inside : color.toNat < s.ring.palette.toNat :=
      UInt8.lt_iff_toNat_lt.1 (consistent.sound.2 color (List.mem_of_getElem? shown))
    rw [Nat.add_zero, Nat.mod_eq_of_lt inside, UInt8.toNat_inj] at leads
    subst leads
    refine ⟨s, .refl s, .inr ⟨painting, rfl, fun j => ?_⟩⟩
    split
    case isTrue here => rw [Finset.mem_singleton.1 here, shown]
    case isFalse => rfl
  | succ steps ih =>
    have recolorable : s.Recolorable i := ⟨painting, byte, chosen⟩
    obtain ⟨ring, cycles, -, advanced⟩ := consistent.cycles recolorable
    have becomes := Becomes.cycled recolorable cycles
    by_cases won : ring.isWon
    · refine ⟨_, becomes.plays, .inl ?_⟩
      rw [settle_phase, if_pos won]
    · have same : settle { s with ring } = { s with ring } := if_neg won
      rw [same] at becomes
      obtain ⟨color', shown', later, shows_later, value⟩ := advanced.advanced
      obtain rfl : color = color' := Option.some.inj (shown.symm.trans shown')
      have leads' : (later.toNat + steps) % ring.palette.toNat = goal.toNat := by
        rw [advanced.palette, value, Nat.mod_add_mod, ← leads]
        congr 1
        omega
      obtain ⟨t, plays, outcome⟩ := ih (s := { s with ring }) (consistent.step becomes) painting
        chosen shows_later (advanced.palette ▸ proper) leads'
      refine ⟨t, becomes.plays.trans plays, outcome.imp_right fun painted => ?_⟩
      refine ⟨painted.phase, painted.chosen, fun j => ?_⟩
      rw [painted.color?]
      split
      case isTrue => rfl
      case isFalse other => exact advanced.kept j (by simpa using other)

/-- Any chosen holes can be painted with any color of the palette, or the game ends on the way. -/
theorem Consistent.exists_painted (consistent : s.Consistent) (painting : s.phase = .modify)
    {goal : UInt8} (proper : goal < s.ring.palette) {holes : Finset ℕ}
    (chosen : ∀ i ∈ holes, i < 256 ∧ UInt8.ofNat i ∈ s.chosen) :
    ∃ t, s.Plays t ∧ (t.phase = .victory ∨ s.Painted goal holes t) := by
  induction holes using Finset.induction_on with
  | empty => exact ⟨s, .refl s, .inr ⟨painting, rfl, by simp⟩⟩
  | insert i holes fresh ih =>
    obtain ⟨t, plays, outcome⟩ := ih fun j member => chosen j (Finset.mem_insert_of_mem member)
    rcases outcome with won | painted
    · exact ⟨t, plays, .inl won⟩
    · obtain ⟨byte, held⟩ := chosen i (Finset.mem_insert_self ..)
      have stays := plays.stays consistent
      have inside := consistent.inside _ held
      rw [UInt8.toNat_ofNat_of_lt' byte] at inside
      have there : i < t.ring.colors.length := by
        have size : t.ring.size = s.ring.size := stays.size
        exact (Nat.lt_min.1 inside).1.trans_eq size.symm
      have proper' : goal < t.ring.palette := stays.palette ▸ proper
      have before := UInt8.lt_iff_toNat_lt.1 (stays.sound.2 _ (List.getElem_mem there))
      have after := UInt8.lt_iff_toNat_lt.1 proper'
      have leads : (t.ring.colors[i].toNat + (t.ring.palette.toNat - t.ring.colors[i].toNat +
          goal.toNat)) % t.ring.palette.toNat = goal.toNat := by
        rw [← Nat.add_assoc, Nat.add_sub_cancel' before.le, Nat.add_mod_left,
          Nat.mod_eq_of_lt after]
      obtain ⟨u, plays', outcome⟩ := stays.toConsistent.exists_cycled painted.phase byte
        (painted.chosen ▸ held) (List.getElem?_eq_getElem there) proper' leads
      refine ⟨u, plays.trans plays', outcome.imp_right fun painted' => ?_⟩
      refine ⟨painted'.phase, painted'.chosen.trans painted.chosen, fun j => ?_⟩
      rw [painted'.color?, painted.color?]
      by_cases here : j = i <;> simp [here]

/-- The player can always come to the end of the turn, or of the game. -/
theorem Consistent.exists_ended (consistent : s.Consistent) (fits : s.HandFits) :
    ∃ t, s.Plays t ∧ (t.phase = .victory ∨ t.phase = .adversary) := by
  have commits {t : Session} (plays : s.Plays t) (painting : t.phase = .modify) :
      ∃ u, s.Plays u ∧ (u.phase = .victory ∨ u.phase = .adversary) :=
    ⟨_, plays.trans (Becomes.committed painting).plays, .inr rfl⟩
  cases phase : s.phase with
  | select =>
    have few : s.held.card ≤ s.handSize := by
      have filled := consistent.filled.length_le
      have := fits.one_le
      rw [consistent.card_held]
      omega
    obtain ⟨hand, keeps, inside, full⟩ := Finset.exists_subsuperset_card_eq consistent.held_subset
      few (by rw [Finset.card_range]; exact fits.le_size)
    obtain ⟨t, plays, painting, -, -⟩ := consistent.exists_hand fits phase keeps inside full
    exact commits plays painting
  | modify => exact commits (.refl s) phase
  | adversary => exact ⟨s, .refl s, .inr phase⟩
  | victory => exact ⟨s, .refl s, .inl phase⟩

end RingLock.Session
