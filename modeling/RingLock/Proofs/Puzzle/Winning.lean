import RingLock.Proofs.Puzzle.Expansion
import RingLock.Proofs.Safety.Locations

/-!
# The winning region of a lock

The winning region of an expanded lock holds exactly the positions from which the player cannot
force a ring of one color. So it is empty if and only if the puzzle is solvable.

The positions where the player cannot win make up a set in which the adversary can stay. In the
other direction, a win in some number of turns is a way out of any such set, by induction on the
turns. The empty hand, where a model offers it, is never better than a full one.
-/
namespace RingLock.Puzzle

open Coloring

variable {C : Type} [DecidableEq C] [Hashable C] [Coloring C] [Readable C] [Inspect C] {c : Config}
  {stepsFrom? : Position C → Option (List (Step C))} {hands : List Hand} {p : Puzzle C}
  {steps : List (List (Step C))}

theorem Expanded.size_le (expanded : p.Expanded c stepsFrom? steps)
    (lawful : Lawful C c.holes.toNat c.colors.toNat) : p.arena.size ≤
      c.colors.toNat ^ c.holes.toNat * (c.holes.toNat.choose c.hand.toNat + 1) := by
  obtain ⟨initial, -, built⟩ := expanded.built
  obtain ⟨-, -, -, -, locations, -, -, -⟩ := Arena.build_eq_ok built
  rw [Arena.size, locations, ← length_positions lawful]
  exact Numbering.size_ofList_le _

omit [Readable C] in
theorem Expanded.bound_mixed (expanded : p.Expanded c stepsFrom? steps)
    (small : p.arena.size < UInt32.size) : p.mixed.bound = p.arena.size := by
  rw [expanded.mixed, expanded.uniform, Region.complement, Region.bound_ofFn,
    Arena.bound_regionWhere small, Nat.mod_eq_of_lt small]

omit [Readable C] in
/-- The mixed region holds the positions with more than one color. -/
theorem Expanded.holds_mixed (expanded : p.Expanded c stepsFrom? steps)
    (small : p.arena.size < UInt32.size) (q : Position C) : p.arena.Holds p.mixed q ↔
      q ∈ positions c ∧ ¬Coloring.isUniform q.coloring c.holes.toNat := by
  obtain ⟨initial, -, built⟩ := expanded.built
  have fits : p.uniform.bound = p.arena.size := by
    rw [expanded.uniform, Arena.bound_regionWhere small]
  rw [expanded.mixed, Arena.holds_complement small fits, expanded.uniform,
    Arena.holds_regionWhere small, Arena.mem_locations_of_build built]
  tauto

/-- A position from which the player cannot force a ring of one color. -/
def Lost (c : Config) (q : Position C) : Prop :=
  q ∈ positions c ∧ ∃ ring : Fin c.holes.toNat → Fin c.colors.toNat, Shows q.coloring ring ∧
    ∀ turns, ¬Forces c.hand.toNat turns ring (q.hand.set c.holes.toNat)

omit [DecidableEq C] [Hashable C] [Inspect C] in
/-- Whether a position is lost can be told from the ring that it shows. -/
theorem lost_iff (bytes : c.colors.toNat ≤ 256) {q : Position C} (listed : q ∈ positions c)
    {ring : Fin c.holes.toNat → Fin c.colors.toNat} (shown : Shows q.coloring ring) :
    Lost c q ↔ ∀ turns, ¬Forces c.hand.toNat turns ring (q.hand.set c.holes.toNat) := by
  constructor
  · rintro ⟨-, ring', shown', lost⟩
    rwa [shown.unique bytes shown']
  · exact fun lost => ⟨listed, ring, shown, lost⟩

/-- From a position where the adversary can stay among mixed rings, no number of turns is enough. -/
theorem not_forces_of_stays (model : Model c stepsFrom? hands)
    (expanded : p.Expanded c stepsFrom? steps)
    (small : p.arena.size < UInt32.size) {s : Set (Position C)}
    (stays : p.arena.Stays (Action.range c.holes.toNat) steps.flatten p.mixed s) (turns : ℕ)
    {q : Position C} (member : q ∈ s) {ring : Fin c.holes.toNat → Fin c.colors.toNat}
    (shown : Shows q.coloring ring) :
    ¬Forces c.hand.toNat turns ring (q.hand.set c.holes.toNat) := by
  obtain ⟨-, le, short, -, few⟩ := Config.bounds_of_check model.checked
  have lawful := model.lawful
  induction turns generalizing q ring with
  | zero =>
    obtain ⟨listed, mixed⟩ := (expanded.holds_mixed small q).1 (stays q member).1
    have coloring := (mem_positions.1 listed).1
    exact fun solved => mixed ((lawful.isUniform_iff_solved (by omega) coloring shown).2 solved)
  | succ turns ih =>
    obtain ⟨target, a, listed_a, keeps⟩ := stays q member
    obtain ⟨listed, mixed⟩ := (expanded.holds_mixed small q).1 target
    obtain ⟨coloring, option⟩ := mem_positions.1 listed
    have amount := (Action.mem_range (short.trans_lt (by decide))).1 listed_a
    rintro (solved | answers)
    · exact mixed ((lawful.isUniform_iff_solved (by omega) coloring shown).2 solved)
    obtain ⟨next, chosen, reaches, card, forces⟩ := answers ⟨a.amount, amount⟩
    -- The answer in the puzzle is a move of the arena, so it stays in the set.
    obtain ⟨hand, full, rfl⟩ := Hand.exists_full_of_card (by omega) chosen
    rw [card] at full
    obtain ⟨d, hd, shows_next⟩ := lawful.exists_shown (by omega) next
    have makes := (lawful.makes_iff (by omega) (by omega) coloring shown
      (Hand.inside_of_mem_options (by omega) option) (Hand.size_le_of_mem_options option) le
      ⟨a.amount, amount⟩).2 ⟨hd, next, shows_next, reaches⟩
    have move : (q, a, ⟨d, hand⟩) ∈ steps.flatten :=
      (model.mem_steps expanded.moves listed mixed a _).2 ⟨listed_a, model.full hand full, makes⟩
    exact ih (keeps _ move) shows_next forces

/-- The adversary can stay among the positions from which the player cannot win. -/
theorem stays_lost (model : Model c stepsFrom? hands)
    (expanded : p.Expanded c stepsFrom? steps)
    (small : p.arena.size < UInt32.size) :
    p.arena.Stays (Action.range c.holes.toNat) steps.flatten p.mixed {q | Lost c q} := by
  obtain ⟨-, le, short, -, few⟩ := Config.bounds_of_check model.checked
  have lawful := model.lawful
  rintro q ⟨listed, ring, shown, lost⟩
  obtain ⟨coloring, option⟩ := mem_positions.1 listed
  have mixed : ¬Coloring.isUniform q.coloring c.holes.toNat := fun uniform =>
    lost 0 ((lawful.isUniform_iff_solved (by omega) coloring shown).1 uniform)
  obtain ⟨amount, evades⟩ := exists_evasion lost
  have turn : (Action.ofNat amount).amount = amount :=
    Action.amount_ofNat ((amount.isLt.trans_le short).trans (by decide))
  refine ⟨(expanded.holds_mixed small q).2 ⟨listed, mixed⟩, Action.ofNat amount,
    (Action.mem_range (short.trans_lt (by decide))).2 (turn.symm ▸ amount.isLt), fun t move => ?_⟩
  obtain ⟨-, next_hand, makes⟩ := (model.mem_steps expanded.moves listed mixed _ t).1 move
  rw [turn, lawful.makes_iff (by omega) (by omega) coloring shown
    (Hand.inside_of_mem_options (by omega) option) (Hand.size_le_of_mem_options option) le] at makes
  obtain ⟨ht, next, shows_next, reaches⟩ := makes
  have next_option := model.options _ next_hand
  refine ⟨mem_positions.2 ⟨ht, next_option⟩, next, shows_next, fun turns => ?_⟩
  rcases Hand.mem_options.1 next_option with full | none_pending
  · exact evades next _ reaches (Hand.card_set (by omega) full) turns
  · -- Some full hand would serve the player as well as the empty one.
    obtain ⟨larger, -, card⟩ := Finset.exists_subset_card_eq
      (s := (Finset.univ : Finset (Fin c.holes.toNat))) (by simpa using le)
    rw [none_pending, Hand.set_empty]
    exact fun forces => evades next larger reaches card turns (forces.of_subset (by simp))

/-- The winning region exists, and it holds exactly the positions from which the player cannot force
a ring of one color. -/
theorem exists_winningRegion? (model : Model c stepsFrom? hands)
    (expanded : p.Expanded c stepsFrom? steps)
    (small : p.arena.size < UInt32.size - 2) :
    ∃ w, p.winningRegion? = some w ∧ w.bound = p.arena.size ∧ w.Counted ∧
      ∀ q : Position C, p.arena.Holds w q ↔ Lost c q := by
  have bounded : p.arena.size < UInt32.size := by omega
  obtain ⟨initial, -, built⟩ := expanded.built
  obtain ⟨w, run, fits, counted, stays, greatest⟩ :=
    Arena.exists_winningRegion?_stays built small (expanded.bound_mixed bounded)
  refine ⟨w, run, fits, counted, fun q => ⟨fun member => ?_, fun lost => ?_⟩⟩
  · have listed := ((expanded.holds_mixed bounded q).1 (stays q member).1).1
    obtain ⟨ring, shown⟩ := model.lawful.exists_ring (mem_positions.1 listed).1
    exact ⟨listed, ring, shown, fun turns =>
      not_forces_of_stays model expanded bounded stays turns member shown⟩
  · exact greatest (stays_lost model expanded bounded) lost

/-- The verdict says whether the puzzle is solvable. -/
theorem exists_verdict (model : Model c stepsFrom? hands)
    (expanded : p.Expanded c stepsFrom? steps)
    (small : p.arena.size < UInt32.size - 2) :
    ∃ verdict, p.playerWins? = some verdict ∧
      (verdict ↔ Solvable c.holes.toNat c.hand.toNat c.colors.toNat) := by
  obtain ⟨-, -, short, -, few⟩ := Config.bounds_of_check model.checked
  obtain ⟨w, run, fits, counted, holds⟩ :=
    exists_winningRegion? model expanded small
  refine ⟨w.isEmpty, by rw [playerWins?, run]; rfl, ?_⟩
  rw [Arena.isEmpty_iff_holds (by omega) fits counted]
  constructor
  · intro none_left ring pending _ fits
    obtain ⟨coloring, hc, shown⟩ := model.lawful.exists_shown (by omega) ring
    obtain ⟨hand, option, rfl⟩ : ∃ hand ∈ Hand.options c.holes.toNat c.hand.toNat,
        hand.set c.holes.toNat = pending := by
      rcases fits with full | rfl
      · obtain ⟨hand, member, same⟩ := Hand.exists_full_of_card (by omega) pending
        exact ⟨hand, Hand.mem_options.2 (Or.inl (full ▸ member)), same⟩
      · exact ⟨.empty, Hand.mem_options.2 (Or.inr rfl), Hand.set_empty _⟩
    by_contra lost
    push Not at lost
    exact none_left ⟨coloring, hand⟩
      ((holds _).2 ⟨mem_positions.2 ⟨hc, option⟩, ring, shown, lost⟩)
  · intro solvable q member
    obtain ⟨listed, ring, shown, lost⟩ := (holds q).1 member
    have pending :
        (q.hand.set c.holes.toNat).card = c.hand.toNat ∨ q.hand.set c.holes.toNat = ∅ := by
      rcases Hand.mem_options.1 (mem_positions.1 listed).2 with full | none_pending
      · exact Or.inl (Hand.card_set (by omega) full)
      · exact Or.inr (by rw [none_pending, Hand.set_empty])
    obtain ⟨turns, forces⟩ := solvable ring _ (lost 0) pending
    exact lost turns forces

end RingLock.Puzzle
