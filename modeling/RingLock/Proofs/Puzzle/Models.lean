import RingLock.Proofs.Coloring.Listed
import RingLock.Proofs.Coloring.Packed
import RingLock.Proofs.Puzzle.Expansion
import RingLock.Puzzle.ManyColor
import RingLock.Puzzle.TwoColor

/-!
# The two models

The two-color and the many-color moves are models of a checked lock. They differ at rings of one
color and in the empty hand, which the many-color model alone offers next.
-/
namespace RingLock.Puzzle

variable {c : Config}

/-- The configuration that the two-color model expands. -/
theorem run_twoColor {p : Puzzle Packed} : (twoColor c).run = some (.ok p) ↔
    { c with colors := 2 }.check = .ok () ∧
      (expand { c with colors := 2 } (twoColorSteps? { c with colors := 2 })).run = some (.ok p) :=
  Attempt.check_then_eq_ok

theorem run_manyColor {p : Puzzle Listed} : (manyColor c).run = some (.ok p) ↔
    c.check = .ok () ∧ (expand c (manyColorSteps? c)).run = some (.ok p) :=
  Attempt.check_then_eq_ok

theorem model_twoColor (checked : c.check = .ok ()) (two : c.colors.toNat = 2) :
    Model c (twoColorSteps? c) (Hand.full c.holes.toNat c.hand.toNat) := by
  obtain ⟨one, le, short, -, -⟩ := Config.bounds_of_check checked
  constructor
  case checked => exact checked
  case lawful => exact two ▸ Packed.lawful (by omega)
  case uniform =>
    intro p listed uniform
    refine ⟨[(p, .ofNat 0, p)], if_pos uniform, fun m member => ?_⟩
    obtain rfl := List.mem_singleton.1 member
    refine ⟨rfl, (Action.mem_range (short.trans_lt (by decide))).2 ?_, listed⟩
    rw [Action.amount_ofNat (by decide)]
    omega
  case mixed =>
    intro p _ mixed
    exact if_neg mixed
  case full => exact fun h full => full
  case options => exact fun h full => Hand.mem_options.2 (Or.inl full)

theorem model_manyColor (checked : c.check = .ok ()) :
    Model c (manyColorSteps? c) (Hand.options c.holes.toNat c.hand.toNat) := by
  obtain ⟨-, -, -, -, few⟩ := Config.bounds_of_check checked
  constructor
  case checked => exact checked
  case lawful => exact Listed.lawful (by omega)
  case uniform =>
    intro p listed uniform
    refine ⟨_, if_pos uniform, fun m member => ?_⟩
    simp only [List.mem_flatMap, List.mem_map] at member
    obtain ⟨a, action, hand, option, rfl⟩ := member
    exact ⟨rfl, action, mem_positions.2 ⟨(mem_positions.1 listed).1, option⟩⟩
  case mixed =>
    intro p _ mixed
    exact if_neg mixed
  case full => exact fun h full => Hand.mem_options.2 (Or.inl full)
  case options => exact fun h option => option

/-- What a lock built in the two-color model consists of. -/
theorem expanded_twoColor {p : Puzzle Packed} (built : (twoColor c).run = some (.ok p)) :
    let d := { c with colors := 2 }
    Model d (twoColorSteps? d) (Hand.full c.holes.toNat c.hand.toNat) ∧
      ∃ steps, p.Expanded d (twoColorSteps? d) steps := by
  obtain ⟨checked, built⟩ := run_twoColor.1 built
  exact ⟨model_twoColor checked rfl, expand_eq_ok built⟩

theorem expanded_manyColor {p : Puzzle Listed} (built : (manyColor c).run = some (.ok p)) :
    Model c (manyColorSteps? c) (Hand.options c.holes.toNat c.hand.toNat) ∧
      ∃ steps, p.Expanded c (manyColorSteps? c) steps := by
  obtain ⟨checked, built⟩ := run_manyColor.1 built
  exact ⟨model_manyColor checked, expand_eq_ok built⟩

/-- A checked lock is built in the two-color model as soon as its initial draw ends. -/
theorem exists_twoColor (checked : { c with colors := 2 }.check = .ok ())
    (drawn : (initial? { c with colors := 2 } : Option (Option (Position Packed))).isSome) :
    ∃ p, (twoColor c).run = some (.ok p) := by
  obtain ⟨p, built⟩ := exists_expand (model_twoColor checked rfl) drawn
  exact ⟨p, run_twoColor.2 ⟨checked, built⟩⟩

theorem exists_manyColor (checked : c.check = .ok ())
    (drawn : (initial? c : Option (Option (Position Listed))).isSome) :
    ∃ p, (manyColor c).run = some (.ok p) := by
  obtain ⟨p, built⟩ := exists_expand (model_manyColor checked) drawn
  exact ⟨p, run_manyColor.2 ⟨checked, built⟩⟩

end RingLock.Puzzle
