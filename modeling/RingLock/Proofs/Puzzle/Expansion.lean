import RingLock.Proofs.Arena.WellFormed
import RingLock.Proofs.Config
import RingLock.Proofs.Puzzle.Rings
import RingLock.Proofs.Random.Draw
import RingLock.Puzzle.Basic

/-!
# Expanding a lock

The moves of a turn are what a rotation, a recoloring and a choice of the next hand make of a
position. A model of a lock says what happens at rings of one color and which hands may come next.
From a checked configuration its expansion returns as soon as the initial draw ends, and the arena
has the positions and the moves that the model says.
-/
namespace RingLock

/-- A short range holds the actions with smaller amounts. -/
theorem Action.mem_range {count : ℕ} (short : count < UInt16.size) {a : Action} :
    a ∈ range count ↔ a.amount < count := by
  rw [range, Nat.mod_eq_of_lt short, List.mem_map]
  constructor
  · rintro ⟨n, bounded, rfl⟩
    have := List.mem_range.1 bounded
    rwa [amount_ofNat (by omega)]
  · intro bounded
    exact ⟨a.amount, List.mem_range.2 bounded, by simp [ofNat, amount]⟩

namespace Puzzle

open Coloring

variable {C : Type} [DecidableEq C] [Hashable C] [Coloring C] {c : Config}

omit [DecidableEq C] [Hashable C] in
theorem mem_positions {p : Position C} : p ∈ positions c ↔
    p.coloring ∈ (all c.holes.toNat c.colors.toNat : List C) ∧
      p.hand ∈ Hand.options c.holes.toNat c.hand.toNat := by
  simp only [positions, List.mem_flatMap, List.mem_map]
  constructor
  · rintro ⟨coloring, listed, hand, option, rfl⟩
    exact ⟨listed, option⟩
  · rintro ⟨listed, option⟩
    exact ⟨_, listed, _, option, rfl⟩

omit [DecidableEq C] [Hashable C] in
/-- The number of positions: a coloring of the ring, and a full hand or none. -/
theorem length_positions [Readable C] (lawful : Lawful C c.holes.toNat c.colors.toNat) :
    (positions c : List (Position C)).length =
      c.colors.toNat ^ c.holes.toNat * (c.holes.toNat.choose c.hand.toNat + 1) := by
  simp only [positions, List.length_flatMap, List.length_map, Hand.length_options]
  rw [List.map_const', List.sum_replicate_nat, lawful.length_all]

omit [DecidableEq C] [Hashable C] in
/-- The moves of a turn: every action, everything that it and a recoloring make of the coloring, and
every next hand. -/
theorem mem_turns? {hands : List Hand} {p : Position C} {steps : List (Step C)}
    (h : turns? c hands p = some steps) (m : Step C) : m ∈ steps ↔ m.1 = p ∧
      m.2.1 ∈ Action.range c.holes.toNat ∧ m.2.2.hand ∈ hands ∧
      Makes p.coloring p.hand c.holes.toNat c.hand.toNat c.colors.toNat m.2.1.amount
        m.2.2.coloring := by
  obtain ⟨byAction, each, same⟩ := Option.bind_eq_some_iff.1 h
  obtain rfl := Option.some.inj same
  simp only [List.mem_flatten, Traversal.mem_mapM each]
  constructor
  · rintro ⟨made, ⟨a, listed, run⟩, member⟩
    obtain ⟨turned, rotates, rest⟩ := Option.bind_eq_some_iff.1 run
    obtain ⟨recolored, recolors, same⟩ := Option.bind_eq_some_iff.1 rest
    obtain rfl := Option.some.inj same
    simp only [List.mem_flatMap, List.mem_map] at member
    obtain ⟨coloring, among, hand, next, rfl⟩ := member
    obtain ⟨r, hr, paints⟩ := (Traversal.mem_mapM recolors coloring).1 among
    exact ⟨rfl, listed, next, turned, rotates, r, hr, paints⟩
  · obtain ⟨q, a, t⟩ := m
    rintro ⟨rfl, listed, next, turned, rotates, r, hr, paints⟩
    obtain ⟨made, run⟩ := Traversal.mapM_total each listed
    refine ⟨made, ⟨a, listed, run⟩, ?_⟩
    obtain ⟨turned', rotates', rest⟩ := Option.bind_eq_some_iff.1 run
    obtain rfl : turned = turned' := Option.some.inj (rotates.symm.trans rotates')
    obtain ⟨recolored, recolors, same⟩ := Option.bind_eq_some_iff.1 rest
    obtain rfl := Option.some.inj same
    refine List.mem_flatMap.2 ⟨t.coloring, (Traversal.mem_mapM recolors _).2 ⟨r, hr, paints⟩, ?_⟩
    exact List.mem_map.2 ⟨t.hand, next, rfl⟩

omit [DecidableEq C] [Hashable C] in
theorem exists_turns? [Readable C] (checked : c.check = .ok ())
    (lawful : Lawful C c.holes.toNat c.colors.toNat) (hands : List Hand) {p : Position C}
    (listed : p ∈ positions c) : ∃ steps, turns? c hands p = some steps := by
  obtain ⟨-, le, short, -, -⟩ := Config.bounds_of_check checked
  obtain ⟨coloring, option⟩ := mem_positions.1 listed
  have inside := Hand.inside_of_mem_options (by omega) option
  have fits := Hand.size_le_of_mem_options option
  refine Traversal.exists_mapM_bind fun a ha => ?_
  have amount := (Action.mem_range (short.trans_lt (by decide))).1 ha
  obtain ⟨turned, member, rotates, -⟩ := lawful.rotate _ coloring a.amount amount
  rw [rotates]
  refine Traversal.exists_mapM_bind fun r hr => ?_
  obtain ⟨d, -, paints, -⟩ := lawful.recolor turned member p.hand _ inside fits le r hr
  exact ⟨d, paints⟩

section Model

variable [Readable C] {stepsFrom? : Position C → Option (List (Step C))} {hands : List Hand}

/-- A model of a checked lock: a ring of one color keeps to the positions, and from every other ring
the turns lead on to given hands, among them all the full ones. -/
structure Model (c : Config) (stepsFrom? : Position C → Option (List (Step C)))
    (hands : List Hand) : Prop where
  checked : c.check = .ok ()
  lawful : Lawful C c.holes.toNat c.colors.toNat
  uniform : ∀ p ∈ positions c, Coloring.isUniform p.coloring c.holes.toNat →
    ∃ steps, stepsFrom? p = some steps ∧
      ∀ m ∈ steps, m.1 = p ∧ m.2.1 ∈ Action.range c.holes.toNat ∧ m.2.2 ∈ positions c
  mixed : ∀ p ∈ positions c, ¬Coloring.isUniform p.coloring c.holes.toNat →
    stepsFrom? p = turns? c hands p
  full : ∀ h ∈ Hand.full c.holes.toNat c.hand.toNat, h ∈ hands
  options : ∀ h ∈ hands, h ∈ Hand.options c.holes.toNat c.hand.toNat

omit [DecidableEq C] [Hashable C] in
/-- What a model gives for a position starts there. -/
theorem Model.source_eq (model : Model c stepsFrom? hands) {p : Position C}
    (listed : p ∈ positions c) {made : List (Step C)} (run : stepsFrom? p = some made) {m : Step C}
    (member : m ∈ made) : m.1 = p := by
  by_cases uniform : Coloring.isUniform p.coloring c.holes.toNat
  · obtain ⟨stay, run', keeps⟩ := model.uniform p listed uniform
    obtain rfl : made = stay := Option.some.inj (run.symm.trans run')
    exact (keeps m member).1
  · rw [model.mixed p listed uniform] at run
    exact ((mem_turns? run m).1 member).1

omit [DecidableEq C] [Hashable C] in
/-- The moves of a model are those that it gives for their sources. -/
theorem Model.mem_steps_iff (model : Model c stepsFrom? hands) {steps : List (List (Step C))}
    (h : (positions c).mapM stepsFrom? = some steps) (m : Step C) :
    m ∈ steps.flatten ↔ m.1 ∈ positions c ∧ ∃ made, stepsFrom? m.1 = some made ∧ m ∈ made := by
  simp only [List.mem_flatten, Traversal.mem_mapM h]
  constructor
  · rintro ⟨made, ⟨p, listed, run⟩, member⟩
    obtain rfl : m.1 = p := model.source_eq listed run member
    exact ⟨listed, made, run, member⟩
  · rintro ⟨listed, made, run, member⟩
    exact ⟨made, ⟨m.1, listed, run⟩, member⟩

omit [DecidableEq C] [Hashable C] in
/-- The moves of a model from a position with more than one color are those of the turns there. -/
theorem Model.mem_steps (model : Model c stepsFrom? hands) {steps : List (List (Step C))}
    (h : (positions c).mapM stepsFrom? = some steps) {p : Position C} (listed : p ∈ positions c)
    (mixed : ¬Coloring.isUniform p.coloring c.holes.toNat) (a : Action) (t : Position C) :
    (p, a, t) ∈ steps.flatten ↔ a ∈ Action.range c.holes.toNat ∧ t.hand ∈ hands ∧
      Makes p.coloring p.hand c.holes.toNat c.hand.toNat c.colors.toNat a.amount t.coloring := by
  rw [model.mem_steps_iff h]
  constructor
  · rintro ⟨-, made, run, member⟩
    rw [model.mixed p listed mixed] at run
    exact ((mem_turns? run _).1 member).2
  · intro turn
    obtain ⟨made, run⟩ := Traversal.mapM_total h listed
    refine ⟨listed, made, run, ?_⟩
    rw [model.mixed p listed mixed] at run
    exact (mem_turns? run _).2 ⟨rfl, turn⟩

omit [DecidableEq C] [Hashable C] in
/-- Every position has moves, and they stay within the positions and the actions. -/
theorem Model.exists_steps (model : Model c stepsFrom? hands) {p : Position C}
    (listed : p ∈ positions c) : ∃ steps, stepsFrom? p = some steps ∧ ∀ m ∈ steps,
      m.1 ∈ positions c ∧ m.2.1 ∈ Action.range c.holes.toNat ∧ m.2.2 ∈ positions c := by
  have lawful := model.lawful
  by_cases uniform : Coloring.isUniform p.coloring c.holes.toNat
  · obtain ⟨steps, run, keeps⟩ := model.uniform p listed uniform
    refine ⟨steps, run, fun m member => ?_⟩
    obtain ⟨same, action, target⟩ := keeps m member
    exact ⟨same ▸ listed, action, target⟩
  · obtain ⟨steps, run⟩ := exists_turns? model.checked lawful hands listed
    refine ⟨steps, by rw [model.mixed p listed uniform, run], fun m member => ?_⟩
    obtain ⟨-, le, short, -, few⟩ := Config.bounds_of_check model.checked
    obtain ⟨coloring, option⟩ := mem_positions.1 listed
    obtain ⟨ring, shown⟩ := lawful.exists_ring coloring
    obtain ⟨same, action, next, makes⟩ := (mem_turns? run m).1 member
    have amount := (Action.mem_range (short.trans_lt (by decide))).1 action
    have made := lawful.makes_iff (by omega) (by omega) coloring shown
      (Hand.inside_of_mem_options (by omega) option) (Hand.size_le_of_mem_options option) le
      ⟨m.2.1.amount, amount⟩ (d := m.2.2.coloring)
    exact ⟨same ▸ listed, action, mem_positions.2 ⟨(made.1 makes).1, model.options _ next⟩⟩

end Model

variable [Inspect C]

/-- What an expanded lock consists of. -/
structure Expanded (p : Puzzle C) (c : Config)
    (stepsFrom? : Position C → Option (List (Step C))) (steps : List (List (Step C))) : Prop where
  config : p.config = c
  moves : (positions c).mapM stepsFrom? = some steps
  built : ∃ initial, initial? c = some (some initial) ∧
    Arena.build (positions c) initial (Action.range c.holes.toNat) steps.flatten = .ok p.arena
  uniform : p.uniform = p.arena.regionWhere fun q => Coloring.isUniform q.coloring c.holes.toNat
  mixed : p.mixed = p.uniform.complement

theorem expand_eq_ok {stepsFrom? : Position C → Option (List (Step C))} {p : Puzzle C}
    (h : (expand c stepsFrom?).run = some (.ok p)) : ∃ steps, p.Expanded c stepsFrom? steps := by
  obtain ⟨drawn, draw, rest⟩ := Attempt.bind_eq_ok.1 h
  rw [Attempt.run_ofOption] at draw
  cases drawn with
  | none => simp at rest
  | some initial =>
    simp only [Attempt.bind_eq_ok, Attempt.run_ofOption, Attempt.run_ofExcept] at rest
    obtain ⟨steps, moves, arena, built, same⟩ := rest
    obtain rfl := Except.ok.inj (Option.some.inj same)
    exact ⟨steps, rfl, moves, ⟨initial, draw, built⟩, rfl, rfl⟩

theorem expand_of_built {stepsFrom? : Position C → Option (List (Step C))} {initial : Position C}
    {steps : List (List (Step C))} {arena : Arena (Position C)}
    (draw : initial? c = some (some initial)) (moves : (positions c).mapM stepsFrom? = some steps)
    (built : Arena.build (positions c) initial (Action.range c.holes.toNat) steps.flatten =
      .ok arena) : ∃ p, (expand c stepsFrom?).run = some (.ok p) := by
  let uniform := arena.regionWhere fun q => Coloring.isUniform q.coloring c.holes.toNat
  refine ⟨{ config := c, arena, uniform, mixed := uniform.complement }, ?_⟩
  refine Attempt.bind_eq_ok.2 ⟨some initial, Attempt.run_ofOption.2 draw, ?_⟩
  refine Attempt.bind_eq_ok.2 ⟨steps, Attempt.run_ofOption.2 moves, ?_⟩
  exact Attempt.bind_eq_ok.2 ⟨arena, Attempt.run_ofExcept.2 built, rfl⟩

omit [DecidableEq C] [Hashable C] [Inspect C] in
/-- A checked lock has colorings. -/
theorem all_ne_nil [Readable C] (checked : c.check = .ok ())
    (lawful : Lawful C c.holes.toNat c.colors.toNat) :
    (all c.holes.toNat c.colors.toNat : List C) ≠ [] := by
  obtain ⟨-, -, -, two, -⟩ := Config.bounds_of_check checked
  rw [← List.length_pos_iff, lawful.length_all]
  exact Nat.pow_pos (by omega)

omit [DecidableEq C] [Hashable C] [Inspect C] in
/-- The initial draw, where it ends, gives one of the positions. -/
theorem exists_initial? [Readable C] (checked : c.check = .ok ())
    (lawful : Lawful C c.holes.toNat c.colors.toNat)
    (drawn : (initial? c : Option (Option (Position C))).isSome) :
    ∃ p ∈ positions c, (initial? c : Option (Option (Position C))) = some (some p) := by
  obtain ⟨start, draw⟩ := Option.isSome_iff_exists.1 drawn
  obtain ⟨⟨choice, g⟩, chosen, rfl⟩ := Option.map_eq_some_iff.1 draw
  obtain ⟨coloring, member, rfl⟩ :=
    Generator.exists_of_choose? (all_ne_nil checked lawful) chosen
  exact ⟨⟨coloring, .empty⟩, mem_positions.2 ⟨member, Hand.mem_options.2 (Or.inr rfl)⟩, draw⟩

/-- A checked lock is expanded as soon as the initial draw ends. -/
theorem exists_expand [Readable C] {stepsFrom? : Position C → Option (List (Step C))}
    {hands : List Hand} (model : Model c stepsFrom? hands)
    (drawn : (initial? c : Option (Option (Position C))).isSome) :
    ∃ p, (expand c stepsFrom?).run = some (.ok p) := by
  obtain ⟨initial, listed, draw⟩ := exists_initial? model.checked model.lawful drawn
  have each : ∀ p ∈ positions c, ∃ steps, stepsFrom? p = some steps ∧ ∀ m ∈ steps,
      m.1 ∈ positions c ∧ m.2.1 ∈ Action.range c.holes.toNat ∧ m.2.2 ∈ positions c :=
    fun p listed => model.exists_steps listed
  obtain ⟨steps, moves⟩ : ∃ steps, (positions c).mapM stepsFrom? = some steps :=
    Traversal.exists_mapM fun p listed => by
      obtain ⟨steps, run, -⟩ := each p listed
      simp [run]
  have inside : ∀ m ∈ steps.flatten,
      m.1 ∈ positions c ∧ m.2.1 ∈ Action.range c.holes.toNat ∧ m.2.2 ∈ positions c := by
    intro m member
    obtain ⟨listed, made, run, among⟩ := (model.mem_steps_iff moves m).1 member
    obtain ⟨made', run', stays⟩ := each m.1 listed
    obtain rfl : made = made' := Option.some.inj (run.symm.trans run')
    exact stays m among
  obtain ⟨arena, built⟩ := Arena.exists_build listed inside
  exact expand_of_built draw moves built

end Puzzle

end RingLock
