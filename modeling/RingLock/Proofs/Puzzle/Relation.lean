import RingLock.Proofs.Arena.Moves
import RingLock.Proofs.Puzzle.Verdict

/-!
# The transition relation of a lock

Which moves the arena of a lock has, hole by hole. From a ring of more than one color these are the
turns: outside the hand every color moves on by the amount of the action, the holes of the hand show
any colors, and the next hand is any that the model offers. At a ring of one color each model has
moves of its own. The two regions of a lock share out its positions by whether the ring shows one
color.
-/
namespace RingLock

/-- Two regions that share out the ids of an arena, with the right numbers. -/
structure Arena.Splits {L : Type} [DecidableEq L] [Hashable L] (g : Arena L) (r s : Region) :
    Prop where
  bound_left : r.bound = g.size
  bound_right : s.bound = g.size
  counted_left : r.Counted
  counted_right : s.Counted
  complement : ∀ id, s.contains id ↔ id.index < g.size ∧ ¬r.contains id

theorem Arena.splits_complement {L : Type} [DecidableEq L] [Hashable L] {g : Arena L} {r : Region}
    (small : g.size < UInt32.size) (fits : r.bound = g.size) (counted : r.Counted) :
    g.Splits r r.complement where
  bound_left := fits
  bound_right := by rw [Region.complement, Region.bound_ofFn, fits, Nat.mod_eq_of_lt small]
  counted_left := counted
  counted_right := Region.counted_ofFn ..
  complement id := by
    rw [Region.complement, Region.contains_ofFn (fits ▸ small), fits]
    simp

theorem Action.eq_zero_iff {a : Action} : a = .ofNat 0 ↔ a.amount = 0 := by
  constructor
  · rintro rfl
    rfl
  · intro none_turned
    rw [← ofNat_amount a, none_turned]

namespace Puzzle

open Coloring

section

variable {C : Type} [DecidableEq C] [Hashable C] [Coloring C] [Readable C] {c : Config}
  {stepsFrom? : Position C → Option (List (Step C))} {hands : List Hand}

variable [Inspect C] {p : Puzzle C} {steps : List (List (Step C))}

omit [Readable C] in
/-- The arena of a lock has the moves of its model. -/
theorem Expanded.hasMove_iff (expanded : p.Expanded c stepsFrom? steps)
    (small : p.arena.size ≤ UInt32.size) {q t : Position C} {a : Action} :
    p.arena.hasMove q a t ↔ (q, a, t) ∈ steps.flatten := by
  obtain ⟨initial, -, built⟩ := expanded.built
  exact Arena.hasMove_iff_mem built small

/-- Every move starts at a position. From a ring of more than one color it is a turn. -/
theorem hasMove_iff_of_model (model : Model c stepsFrom? hands)
    (expanded : p.Expanded c stepsFrom? steps) (small : p.arena.size ≤ UInt32.size)
    {q t : Position C} {a : Action} : p.arena.hasMove q a t ↔ q ∈ positions c ∧
      (OneColor q.coloring c.holes.toNat ∧ (∃ made, stepsFrom? q = some made ∧ (q, a, t) ∈ made) ∨
        ¬OneColor q.coloring c.holes.toNat ∧ a.amount < c.holes.toNat ∧ t.hand ∈ hands ∧
          t.coloring ∈ (all c.holes.toNat c.colors.toNat : List C) ∧
          Carried q.coloring t.coloring q.hand c.holes.toNat a.amount) := by
  obtain ⟨-, le, short, -, -⟩ := Config.bounds_of_check model.checked
  rw [expanded.hasMove_iff small, model.mem_steps_iff expanded.moves]
  refine and_congr_right fun listed => ?_
  obtain ⟨coloring, option⟩ := mem_positions.1 listed
  have one_color := model.lawful.isUniform_iff q.coloring coloring
  by_cases uniform : OneColor q.coloring c.holes.toNat
  · simp [uniform]
  · have turns : stepsFrom? q = turns? c hands q :=
      model.mixed q listed fun h => uniform (one_color.1 h)
    obtain ⟨made, run⟩ := exists_turns? model.checked model.lawful hands listed
    have makes (bounded : a.amount < c.holes.toNat) :=
      model.lawful.makes_iff_carried (by omega) coloring
        (Hand.inside_of_mem_options (by omega) option)
        (Hand.size_le_of_mem_options option) le bounded (d := t.coloring)
    have range := Action.mem_range (short.trans_lt (by decide)) (a := a)
    simp only [turns, run, Option.some.injEq, exists_eq_left', mem_turns? run, uniform, range]
    constructor
    · rintro ⟨-, bounded, next, made⟩
      exact Or.inr ⟨not_false, bounded, next, (makes bounded).1 made⟩
    · rintro (⟨absurd, -⟩ | ⟨-, bounded, next, carried⟩)
      · exact absurd.elim
      · exact ⟨trivial, bounded, next, (makes bounded).2 carried⟩

omit [Readable C] in
/-- The two regions of a lock share out its positions. -/
theorem Expanded.splits (expanded : p.Expanded c stepsFrom? steps)
    (small : p.arena.size < UInt32.size) : p.arena.Splits p.uniform p.mixed := by
  rw [expanded.mixed]
  apply Arena.splits_complement small
  · rw [expanded.uniform, Arena.bound_regionWhere small]
  · rw [expanded.uniform]
    exact Region.counted_ofFn ..

/-- The uniform region holds the positions whose ring shows one color. -/
theorem holds_uniform (model : Model c stepsFrom? hands) (expanded : p.Expanded c stepsFrom? steps)
    (small : p.arena.size < UInt32.size) (q : Position C) : p.arena.Holds p.uniform q ↔
      q ∈ positions c ∧ OneColor q.coloring c.holes.toNat := by
  obtain ⟨initial, -, built⟩ := expanded.built
  rw [expanded.uniform, Arena.holds_regionWhere small, Arena.mem_locations_of_build built]
  refine and_congr_right fun listed => ?_
  exact model.lawful.isUniform_iff q.coloring (mem_positions.1 listed).1

end

/-- The positions of a two-color lock. -/
theorem mem_positions_twoColor {c : Config} (short : c.holes.toNat ≤ 16) {b : Packed} {s : Hand} :
    ⟨b, s⟩ ∈ (positions c : List (Position Packed)) ↔
      b.bits.toNat < 2 ^ c.holes.toNat ∧ (s.Fills c.holes.toNat c.hand.toNat ∨ s = .empty) := by
  rw [mem_positions, Packed.mem_all, Packed.mem_words (by omega),
    Hand.mem_options_iff_fills (by omega)]

/-- The positions of a many-color lock. -/
theorem mem_positions_manyColor {c : Config} (short : c.holes.toNat ≤ 16) (few : c.colors.toNat ≤ 8)
    {b : Listed} {s : Hand} : ⟨b, s⟩ ∈ (positions c : List (Position Listed)) ↔
      (b.colors.length = c.holes.toNat ∧ ∀ x ∈ b.colors, x.toNat < c.colors.toNat) ∧
        (s.Fills c.holes.toNat c.hand.toNat ∨ s = .empty) := by
  rw [mem_positions, Listed.mem_all (by omega), Hand.mem_options_iff_fills (by omega)]

/-- A two-color ring of one color keeps its position under action 0. -/
theorem mem_twoColorSteps?_of_uniform {c : Config} {q t : Position Packed} {a : Action}
    (uniform : q.coloring.isUniform c.holes.toNat) :
    (∃ made, twoColorSteps? c q = some made ∧ (q, a, t) ∈ made) ↔ a.amount = 0 ∧ t = q := by
  rw [twoColorSteps?, if_pos uniform]
  simp [Action.eq_zero_iff]

/-- A many-color ring of one color keeps its coloring under every action, and any hand comes
next. -/
theorem mem_manyColorSteps?_of_uniform {c : Config} (short : c.holes.toNat ≤ 16)
    {q t : Position Listed} {a : Action} (uniform : neighboursAgree q.coloring.colors) :
    (∃ made, manyColorSteps? c q = some made ∧ (q, a, t) ∈ made) ↔ a.amount < c.holes.toNat ∧
      t.coloring = q.coloring ∧ (t.hand.Fills c.holes.toNat c.hand.toNat ∨ t.hand = .empty) := by
  rw [← Hand.mem_options_iff_fills (by omega),
    ← Action.mem_range (short.trans_lt (by decide))]
  simp only [manyColorSteps?, if_pos uniform, Option.some.injEq, exists_eq_left', List.mem_flatMap,
    List.mem_map, Prod.mk.injEq, true_and]
  constructor
  · rintro ⟨_, listed, hand, option, rfl, rfl⟩
    exact ⟨listed, rfl, option⟩
  · rintro ⟨listed, same, option⟩
    exact ⟨a, listed, t.hand, option, rfl, by rw [← same]⟩

/-- The moves of an expanded two-color lock. -/
theorem hasMove_iff_of_twoColor {c : Config} {p : Puzzle Packed} {steps : List (List (Step Packed))}
    (model : Model c (twoColorSteps? c) (Hand.full c.holes.toNat c.hand.toNat))
    (expanded : p.Expanded c (twoColorSteps? c) steps) (small : p.arena.size ≤ UInt32.size)
    {b b' : Packed} {s s' : Hand} {a : Action} : p.arena.hasMove ⟨b, s⟩ a ⟨b', s'⟩ ↔
      b.bits.toNat < 2 ^ c.holes.toNat ∧ (s.Fills c.holes.toNat c.hand.toNat ∨ s = .empty) ∧
      (OneColor b c.holes.toNat ∧ a.amount = 0 ∧ b' = b ∧ s' = s ∨
        ¬OneColor b c.holes.toNat ∧ a.amount < c.holes.toNat ∧
          s'.Fills c.holes.toNat c.hand.toNat ∧ b'.bits.toNat < 2 ^ c.holes.toNat ∧
          Carried b b' s c.holes.toNat a.amount) := by
  obtain ⟨-, -, short, -, -⟩ := Config.bounds_of_check model.checked
  rw [hasMove_iff_of_model model expanded small, mem_positions_twoColor short, and_assoc]
  refine and_congr_right fun inside => and_congr_right fun _ => or_congr ?_ ?_
  · refine and_congr_right fun one_color => ?_
    have member : b ∈ (all c.holes.toNat c.colors.toNat : List Packed) :=
      Packed.mem_all.2 ((Packed.mem_words (by omega)).2 inside)
    have uniform : b.isUniform c.holes.toNat := (model.lawful.isUniform_iff b member).2 one_color
    rw [mem_twoColorSteps?_of_uniform uniform]
    simp
  · rw [Hand.mem_full_iff_fills (by omega), Packed.mem_all, Packed.mem_words (by omega)]

/-- The moves of an expanded many-color lock. -/
theorem hasMove_iff_of_manyColor {c : Config} {p : Puzzle Listed}
    {steps : List (List (Step Listed))}
    (model : Model c (manyColorSteps? c) (Hand.options c.holes.toNat c.hand.toNat))
    (expanded : p.Expanded c (manyColorSteps? c) steps) (small : p.arena.size ≤ UInt32.size)
    {b b' : Listed} {s s' : Hand} {a : Action} : p.arena.hasMove ⟨b, s⟩ a ⟨b', s'⟩ ↔
      a.amount < c.holes.toNat ∧
      (b.colors.length = c.holes.toNat ∧ ∀ x ∈ b.colors, x.toNat < c.colors.toNat) ∧
      (s.Fills c.holes.toNat c.hand.toNat ∨ s = .empty) ∧
      (s'.Fills c.holes.toNat c.hand.toNat ∨ s' = .empty) ∧
      (OneColor b c.holes.toNat ∧ b' = b ∨
        ¬OneColor b c.holes.toNat ∧
          (b'.colors.length = c.holes.toNat ∧ ∀ x ∈ b'.colors, x.toNat < c.colors.toNat) ∧
          Carried b b' s c.holes.toNat a.amount) := by
  obtain ⟨-, -, short, -, few⟩ := Config.bounds_of_check model.checked
  rw [hasMove_iff_of_model model expanded small, mem_positions_manyColor short few]
  by_cases proper : b.colors.length = c.holes.toNat ∧ ∀ x ∈ b.colors, x.toNat < c.colors.toNat
  case neg => simp only [proper, false_and, and_false]
  case pos =>
    have member : b ∈ (all c.holes.toNat c.colors.toNat : List Listed) :=
      (Listed.mem_all (by omega)).2 proper
    rw [Hand.mem_options_iff_fills (by omega), Listed.mem_all (by omega)]
    by_cases one_color : OneColor b c.holes.toNat
    · have uniform : neighboursAgree b.colors := (model.lawful.isUniform_iff b member).2 one_color
      rw [mem_manyColorSteps?_of_uniform short uniform]
      simp only [one_color, eq_true proper, true_and, not_true_eq_false, false_and, or_false]
      constructor
      · intro ⟨option, bounded, same, next⟩
        exact ⟨bounded, option, next, same⟩
      · intro ⟨bounded, option, next, same⟩
        exact ⟨option, bounded, same, next⟩
    · simp only [one_color, eq_true proper, true_and, not_false_eq_true, false_and, false_or]
      constructor
      · intro ⟨option, bounded, next, made⟩
        exact ⟨bounded, option, next, made⟩
      · intro ⟨bounded, option, next, made⟩
        exact ⟨option, bounded, next, made⟩

/-- The moves and the regions of a lock in the two-color model, for every configuration that it
accepts. A ring of one color is absorbing. From every other ring the next hand has to be full. -/
theorem twoColor_hasMove_iff (c : Config) (checked : { c with colors := 2 }.check = .ok ()) :
    ((initial? { c with colors := 2 } : Option (Option (Position Packed))).isSome →
      ∃ p, (twoColor c).run = some (.ok p)) ∧
    ∀ p, (twoColor c).run = some (.ok p) →
      (∀ (b b' : Packed) (s s' : Hand) (a : Action), p.arena.hasMove ⟨b, s⟩ a ⟨b', s'⟩ ↔
        b.bits.toNat < 2 ^ c.holes.toNat ∧ (s.Fills c.holes.toNat c.hand.toNat ∨ s = .empty) ∧
        (OneColor b c.holes.toNat ∧ a.amount = 0 ∧ b' = b ∧ s' = s ∨
          ¬OneColor b c.holes.toNat ∧ a.amount < c.holes.toNat ∧
            s'.Fills c.holes.toNat c.hand.toNat ∧ b'.bits.toNat < 2 ^ c.holes.toNat ∧
            Carried b b' s c.holes.toNat a.amount)) ∧
      (∀ (b : Packed) (s : Hand), p.arena.Holds p.uniform ⟨b, s⟩ ↔
        b.bits.toNat < 2 ^ c.holes.toNat ∧ (s.Fills c.holes.toNat c.hand.toNat ∨ s = .empty) ∧
        OneColor b c.holes.toNat) ∧
      p.arena.Splits p.uniform p.mixed := by
  refine ⟨exists_twoColor checked, fun p built => ?_⟩
  obtain ⟨-, -, short, -, -⟩ := Config.bounds_of_check checked
  obtain ⟨model, steps, expanded⟩ := expanded_twoColor built
  have small : p.arena.size < UInt32.size :=
    (expanded.size_lt_of_two model rfl).trans_le (Nat.sub_le ..)
  refine ⟨fun b b' s s' a => hasMove_iff_of_twoColor model expanded small.le, fun b s => ?_,
    expanded.splits small⟩
  rw [holds_uniform model expanded small, mem_positions_twoColor short, and_assoc]

set_option maxRecDepth 10000 in
/-- On three holes with a hand of one, a turn by 1 carries the color of hole 0 to hole 1, and not to
hole 2. -/
theorem turn_of_three_holes : ∃ p, (twoColor (.twoColor 3 1)).run = some (.ok p) ∧
    p.arena.hasMove ⟨⟨1⟩, ⟨[0]⟩⟩ (.ofNat 1) ⟨⟨3⟩, ⟨[2]⟩⟩ ∧
    ¬p.arena.hasMove ⟨⟨1⟩, ⟨[0]⟩⟩ (.ofNat 1) ⟨⟨4⟩, ⟨[2]⟩⟩ ∧
    p.arena.hasMove ⟨⟨7⟩, ⟨[0]⟩⟩ (.ofNat 0) ⟨⟨7⟩, ⟨[0]⟩⟩ := by
  obtain ⟨built, relation⟩ := twoColor_hasMove_iff (.twoColor 3 1) (by decide)
  obtain ⟨p, run⟩ := built (by decide +kernel)
  obtain ⟨moves, -, -⟩ := relation p run
  refine ⟨p, run, ?_, ?_, ?_⟩
  · rw [moves]
    decide
  · rw [moves]
    decide
  · rw [moves]
    decide

/-- The moves and the regions of a lock in the many-color model, for every configuration that it
accepts and whose positions are within the range of location ids. -/
theorem manyColor_hasMove_iff (c : Config) (checked : c.check = .ok ())
    (fits : c.colors.toNat ^ c.holes.toNat * (c.holes.toNat.choose c.hand.toNat + 1) <
      UInt32.size) :
    ((initial? c : Option (Option (Position Listed))).isSome →
      ∃ p, (manyColor c).run = some (.ok p)) ∧
    ∀ p, (manyColor c).run = some (.ok p) →
      (∀ (b b' : Listed) (s s' : Hand) (a : Action), p.arena.hasMove ⟨b, s⟩ a ⟨b', s'⟩ ↔
        a.amount < c.holes.toNat ∧
        (b.colors.length = c.holes.toNat ∧ ∀ x ∈ b.colors, x.toNat < c.colors.toNat) ∧
        (s.Fills c.holes.toNat c.hand.toNat ∨ s = .empty) ∧
        (s'.Fills c.holes.toNat c.hand.toNat ∨ s' = .empty) ∧
        (OneColor b c.holes.toNat ∧ b' = b ∨
          ¬OneColor b c.holes.toNat ∧
            (b'.colors.length = c.holes.toNat ∧ ∀ x ∈ b'.colors, x.toNat < c.colors.toNat) ∧
            Carried b b' s c.holes.toNat a.amount)) ∧
      (∀ (b : Listed) (s : Hand), p.arena.Holds p.uniform ⟨b, s⟩ ↔
        (b.colors.length = c.holes.toNat ∧ ∀ x ∈ b.colors, x.toNat < c.colors.toNat) ∧
        (s.Fills c.holes.toNat c.hand.toNat ∨ s = .empty) ∧ OneColor b c.holes.toNat) ∧
      p.arena.Splits p.uniform p.mixed := by
  refine ⟨exists_manyColor checked, fun p built => ?_⟩
  obtain ⟨-, -, short, -, few⟩ := Config.bounds_of_check checked
  obtain ⟨model, steps, expanded⟩ := expanded_manyColor built
  have small : p.arena.size < UInt32.size := (expanded.size_le model.lawful).trans_lt fits
  refine ⟨fun b b' s s' a => hasMove_iff_of_manyColor model expanded small.le, fun b s => ?_,
    expanded.splits small⟩
  rw [holds_uniform model expanded small, mem_positions_manyColor short few, and_assoc]

set_option maxRecDepth 10000 in
/-- On three holes with three colors and a hand of two, the holes of the current hand are free, and
no hand may come next. A ring of one color keeps its coloring under any action. -/
theorem turn_of_three_colors : ∃ p, (manyColor (.manyColor 3 2 3)).run = some (.ok p) ∧
    p.arena.hasMove ⟨⟨[0, 1, 2]⟩, ⟨[0, 2]⟩⟩ (.ofNat 1) ⟨⟨[1, 0, 1]⟩, .empty⟩ ∧
    ¬p.arena.hasMove ⟨⟨[0, 1, 2]⟩, ⟨[0, 2]⟩⟩ (.ofNat 1) ⟨⟨[1, 1, 1]⟩, .empty⟩ ∧
    p.arena.hasMove ⟨⟨[2, 2, 2]⟩, .empty⟩ (.ofNat 2) ⟨⟨[2, 2, 2]⟩, ⟨[0, 1]⟩⟩ := by
  obtain ⟨built, relation⟩ := manyColor_hasMove_iff (.manyColor 3 2 3) (by decide) (by decide)
  obtain ⟨p, run⟩ := built (by decide +kernel)
  obtain ⟨moves, -, -⟩ := relation p run
  refine ⟨p, run, ?_, ?_, ?_⟩
  · rw [moves]
    decide
  · rw [moves]
    decide
  · rw [moves]
    decide

end Puzzle

end RingLock
