import RingLock.Proofs.Puzzle.Relation

/-!
# Rings of one color in any target

The fixpoint can be asked for any target, not only for the rings of more than one color. In the
two-color model a ring of one color is absorbing, so it stays in every target that has it. In the
many-color model its hand changes at will, so it stays if and only if the target has it with every
hand. Rings of more than one color have successors under every action: an action without
successors never keeps them.
-/
namespace RingLock.Puzzle

open Coloring

/-- A lock has at least one hole, so the ring may be left unturned. -/
theorem unturned_mem_range {c : Config} (checked : c.check = .ok ()) :
    Action.ofNat 0 ∈ Action.range c.holes.toNat := by
  obtain ⟨one, le, short, -, -⟩ := Config.bounds_of_check checked
  have unturned : (Action.ofNat 0).amount = 0 := Action.amount_ofNat (by decide)
  exact (Action.mem_range (short.trans_lt (by decide))).2 (by omega)

section Model

variable {C : Type} [DecidableEq C] [Hashable C] [Coloring C] [Readable C] [Inspect C] {c : Config}
  {stepsFrom? : Position C → Option (List (Step C))} {hands : List Hand} {p : Puzzle C}
  {steps : List (List (Step C))}

/-- Under every action of a lock, every location of more than one color has successors. -/
def MixedMove (p : Puzzle C) (holes : ℕ) : Prop :=
  ∀ q id, p.arena.idOf? q = some id → ¬OneColor q.coloring holes →
    ∀ a ∈ p.arena.actions.toList, ∃ first rest, p.arena.successors? id a = some (first :: rest)

omit [DecidableEq C] [Hashable C] [Inspect C] in
theorem exists_full (model : Model c stepsFrom? hands) : ∃ h, h ∈ hands := by
  obtain ⟨-, le, -, -, -⟩ := Config.bounds_of_check model.checked
  have some_full : 0 < (Hand.full c.holes.toNat c.hand.toNat).length := by
    rw [Hand.length_full]
    exact Nat.choose_pos le
  obtain ⟨h, full⟩ := List.exists_mem_of_length_pos some_full
  exact ⟨h, model.full h full⟩

/-- The player may leave the turned ring as it is. -/
theorem exists_turn (model : Model c stepsFrom? hands) (expanded : p.Expanded c stepsFrom? steps)
    {q : Position C} (listed : q ∈ positions c) (mixed : ¬OneColor q.coloring c.holes.toNat)
    {a : Action} (action : a ∈ Action.range c.holes.toNat) : ∃ t, (q, a, t) ∈ steps.flatten := by
  obtain ⟨-, le, short, -, -⟩ := Config.bounds_of_check model.checked
  have lawful := model.lawful
  obtain ⟨coloring, option⟩ := mem_positions.1 listed
  have bounded := (Action.mem_range (short.trans_lt (by decide))).1 action
  obtain ⟨turned, member, -, brings⟩ := lawful.rotate q.coloring coloring a.amount bounded
  obtain ⟨h, next⟩ := exists_full model
  have makes := (lawful.makes_iff_carried (by omega) coloring
    (Hand.inside_of_mem_options (by omega) option) (Hand.size_le_of_mem_options option) le
    bounded).2 ⟨member, fun i hi _ => brings i hi⟩
  have not_uniform : ¬Coloring.isUniform q.coloring c.holes.toNat := fun uniform =>
    mixed ((lawful.isUniform_iff q.coloring coloring).1 uniform)
  exact ⟨⟨turned, h⟩, (model.mem_steps expanded.moves listed not_uniform a _).2
    ⟨action, next, makes⟩⟩

theorem mixedMove (model : Model c stepsFrom? hands) (expanded : p.Expanded c stepsFrom? steps)
    (small : p.arena.size ≤ UInt32.size) : p.MixedMove c.holes.toNat := by
  intro q id found mixed a action
  obtain ⟨initial, -, built⟩ := expanded.built
  have listed : q ∈ positions c :=
    (Arena.mem_locations_of_build built).1
      (Numbering.mem_of_find? ((Arena.idOf?_eq_some small).1 found))
  obtain ⟨t, move⟩ := exists_turn model expanded listed mixed
    ((Arena.mem_actions_of_build built).1 action)
  obtain ⟨source, target, place, hq, -, ha, ids, successors, among⟩ :=
    Arena.hasMove_iff.1 ((expanded.hasMove_iff small).2 move)
  obtain rfl : source = id := Option.some.inj (hq.symm.trans found)
  obtain ⟨first, rest, rfl⟩ := List.exists_cons_of_ne_nil (List.ne_nil_of_mem among)
  exact ⟨first, rest, by rw [Arena.successors?, ha]; exact successors⟩

end Model

/-- In the two-color model a ring of one color stays in every target that has it: under action 0
it leads to itself alone. -/
theorem twoColor_keeps {c : Config} {p : Puzzle Packed} {steps : List (List (Step Packed))}
    (model : Model c (twoColorSteps? c) (Hand.full c.holes.toNat c.hand.toNat))
    (expanded : p.Expanded c (twoColorSteps? c) steps) {target w : Region}
    (greatest : IsGreatest {s | p.arena.Stays (Action.range c.holes.toNat) steps.flatten target s}
      {q | p.arena.Holds w q})
    {q : Position Packed} (uniform : OneColor q.coloring c.holes.toNat) :
    p.arena.Holds w q ↔ p.arena.Holds target q := by
  obtain ⟨initial, -, built⟩ := expanded.built
  constructor
  · exact fun held => (greatest.1 q held).1
  · intro held
    have listed := (Arena.mem_locations_of_build built).1 held.listed
    have absorbing : q.coloring.isUniform c.holes.toNat :=
      (model.lawful.isUniform_iff q.coloring (mem_positions.1 listed).1).2 uniform
    have alone : p.arena.Stays (Action.range c.holes.toNat) steps.flatten target {q} := by
      rintro _ rfl
      refine ⟨held, .ofNat 0, unturned_mem_range model.checked, fun t move => ?_⟩
      obtain ⟨-, made⟩ := (model.mem_steps_iff expanded.moves _).1 move
      exact ((mem_twoColorSteps?_of_uniform absorbing).1 made).2
    exact greatest.2 alone rfl

/-- In the many-color model a ring of one color keeps its coloring while any hand may come next. So
it stays in a target if and only if the target has it with every hand. -/
theorem manyColor_keeps_iff {c : Config} {p : Puzzle Listed} {steps : List (List (Step Listed))}
    (model : Model c (manyColorSteps? c) (Hand.options c.holes.toNat c.hand.toNat))
    (expanded : p.Expanded c (manyColorSteps? c) steps) {target w : Region}
    (greatest : IsGreatest {s | p.arena.Stays (Action.range c.holes.toNat) steps.flatten target s}
      {q | p.arena.Holds w q})
    {q : Position Listed} (listed : q ∈ positions c) (uniform : OneColor q.coloring c.holes.toNat) :
    p.arena.Holds w q ↔ ∀ h : Hand, h.Fills c.holes.toNat c.hand.toNat ∨ h = .empty →
      p.arena.Holds target ⟨q.coloring, h⟩ := by
  obtain ⟨one, le, short, -, -⟩ := Config.bounds_of_check model.checked
  obtain ⟨coloring, pending⟩ := mem_positions.1 listed
  have agree : neighboursAgree q.coloring.colors :=
    (model.lawful.isUniform_iff q.coloring coloring).2 uniform
  have moves {h : Hand} (option : h ∈ Hand.options c.holes.toNat c.hand.toNat) {a : Action}
      {t : Position Listed} : (⟨q.coloring, h⟩, a, t) ∈ steps.flatten ↔ a.amount < c.holes.toNat ∧
        t.coloring = q.coloring ∧ (t.hand.Fills c.holes.toNat c.hand.toNat ∨ t.hand = .empty) := by
    have here : (⟨q.coloring, h⟩ : Position Listed) ∈ positions c :=
      mem_positions.2 ⟨coloring, option⟩
    rw [model.mem_steps_iff expanded.moves, and_iff_right here]
    exact mem_manyColorSteps?_of_uniform (q := ⟨q.coloring, h⟩) short agree
  constructor
  · intro held h fits
    obtain ⟨-, a, action, keeps⟩ := greatest.1 q held
    have bounded := (Action.mem_range (short.trans_lt (by decide))).1 action
    exact (greatest.1 _ (keeps ⟨q.coloring, h⟩ ((moves pending).2 ⟨bounded, rfl, fits⟩))).1
  · intro every
    have together : p.arena.Stays (Action.range c.holes.toNat) steps.flatten target
        {t | t.coloring = q.coloring ∧ t.hand ∈ Hand.options c.holes.toNat c.hand.toNat} := by
      rintro ⟨_, h⟩ ⟨rfl, option⟩
      refine ⟨every h ((Hand.mem_options_iff_fills (by omega)).1 option), .ofNat 0,
        unturned_mem_range model.checked, fun t move => ?_⟩
      obtain ⟨-, same, fits⟩ := (moves option).1 move
      exact ⟨same, (Hand.mem_options_iff_fills (by omega)).2 fits⟩
    exact greatest.2 together ⟨rfl, pending⟩

/-- What the fixpoint leaves of any target at the rings of one color, in either model. Of the other
rings none is kept by an action without successors. -/
theorem uniform_rings_decided (c : Config) :
    (∀ p, (twoColor c).run = some (.ok p) → p.MixedMove c.holes.toNat ∧
      ∀ target : Region, target.bound = p.arena.size →
        ∃ w, p.arena.winningRegion? target = some w ∧
          ∀ q : Position Packed, OneColor q.coloring c.holes.toNat →
            (p.arena.Holds w q ↔ p.arena.Holds target q)) ∧
    ∀ p, (manyColor c).run = some (.ok p) → p.arena.size < UInt32.size - 2 →
      p.MixedMove c.holes.toNat ∧
      ∀ target : Region, target.bound = p.arena.size →
        ∃ w, p.arena.winningRegion? target = some w ∧
          ∀ q ∈ p.arena.locations.toList, OneColor q.coloring c.holes.toNat →
            (p.arena.Holds w q ↔
              ∀ h : Hand, h.Fills c.holes.toNat c.hand.toNat ∨ h = .empty →
                p.arena.Holds target ⟨q.coloring, h⟩) := by
  constructor
  · intro p run
    obtain ⟨model, steps, expanded⟩ := expanded_twoColor run
    have small := expanded.size_lt_of_two model rfl
    obtain ⟨initial, -, built⟩ := expanded.built
    have mixed := mixedMove model expanded (by omega)
    refine ⟨mixed, fun target fits => ?_⟩
    obtain ⟨w, solved, -, -, greatest⟩ := Arena.exists_winningRegion?_stays built small fits
    exact ⟨w, solved, fun q => twoColor_keeps model expanded greatest⟩
  · intro p run small
    obtain ⟨model, steps, expanded⟩ := expanded_manyColor run
    obtain ⟨initial, -, built⟩ := expanded.built
    refine ⟨mixedMove model expanded (by omega), fun target fits => ?_⟩
    obtain ⟨w, solved, -, -, greatest⟩ := Arena.exists_winningRegion?_stays built small fits
    refine ⟨w, solved, fun q listed uniform => ?_⟩
    have listed := (Arena.mem_locations_of_build built).1 listed
    exact manyColor_keeps_iff model expanded greatest listed uniform

set_option maxRecDepth 10000 in
/-- Three holes and a hand of one. With two colors, the ring of color 1 stays among the rings of one
color. With colors as a list it does not stay among the positions that pend hole 0, since hole 1 may
come next. -/
theorem uniform_rings_of_three_holes :
    (∃ p, (twoColor (.twoColor 3 1)).run = some (.ok p) ∧
      ∃ w, p.arena.winningRegion? p.uniform = some w ∧ p.arena.Holds w ⟨⟨7⟩, ⟨[0]⟩⟩) ∧
    ∃ p, (manyColor (.manyColor 3 1 2)).run = some (.ok p) ∧
      ∃ target w, p.arena.winningRegion? target = some w ∧
        p.arena.Holds target ⟨⟨[1, 1, 1]⟩, ⟨[0]⟩⟩ ∧ ¬p.arena.Holds w ⟨⟨[1, 1, 1]⟩, ⟨[0]⟩⟩ := by
  constructor
  · obtain ⟨p, run⟩ := exists_twoColor (c := .twoColor 3 1) (by decide) (by decide +kernel)
    obtain ⟨model, steps, expanded⟩ := expanded_twoColor run
    have small := expanded.size_lt_of_two model rfl
    have fits := (expanded.splits (by omega)).bound_left
    obtain ⟨-, solved⟩ := (uniform_rings_decided (.twoColor 3 1)).1 p run
    obtain ⟨w, answer, keeps⟩ := solved p.uniform fits
    have uniform : p.arena.Holds p.uniform ⟨⟨7⟩, ⟨[0]⟩⟩ :=
      (holds_uniform model expanded (by omega) _).2
        ⟨(mem_positions_twoColor (by decide)).2 (by decide), by decide⟩
    exact ⟨p, run, w, answer, (keeps _ (by decide)).2 uniform⟩
  · obtain ⟨p, run⟩ := exists_manyColor (c := .manyColor 3 1 2) (by decide) (by decide +kernel)
    obtain ⟨model, steps, expanded⟩ := expanded_manyColor run
    obtain ⟨initial, -, built⟩ := expanded.built
    have small := expanded.size_lt_of_two model rfl
    let target := p.arena.regionWhere fun q => q.hand = ⟨[0]⟩
    obtain ⟨-, solved⟩ := (uniform_rings_decided (.manyColor 3 1 2)).2 p run small
    obtain ⟨w, answer, keeps⟩ := solved target (Arena.bound_regionWhere (by omega) _)
    have listed : ⟨⟨[1, 1, 1]⟩, ⟨[0]⟩⟩ ∈ p.arena.locations.toList :=
      (Arena.mem_locations_of_build built).2
        ((mem_positions_manyColor (by decide) (by decide)).2 (by decide))
    refine ⟨p, run, target, w, answer, ?_, fun kept => ?_⟩
    · exact (Arena.holds_regionWhere (by omega) _ _).2 ⟨listed, by decide⟩
    · have other := (keeps _ listed (by decide)).1 kept ⟨[1]⟩ (by decide)
      exact absurd ((Arena.holds_regionWhere (by omega) _ _).1 other).2 (by decide)

end RingLock.Puzzle
