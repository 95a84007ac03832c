import RingLock.Proofs.Puzzle.Models
import RingLock.Proofs.Puzzle.Winning

/-!
# The verdict

What the verdict of either model means for the puzzle itself. Two colors on at most 16 holes are
always within the range of location ids. For more colors the number of positions has to be.
-/
namespace RingLock.Puzzle

/-- Locks with two colors have few enough positions. -/
theorem positions_two_lt {holes : ℕ} (short : holes ≤ 16) (hand : ℕ) :
    2 ^ holes * (holes.choose hand + 1) < UInt32.size - 2 := by
  have colorings : 2 ^ holes ≤ 2 ^ 16 := Nat.pow_le_pow_right (by decide) short
  have hands : holes.choose hand ≤ 12870 := calc
    holes.choose hand ≤ (16).choose hand := Nat.choose_le_choose hand short
    _ ≤ (16).choose (16 / 2) := Nat.choose_le_middle hand 16
    _ = 12870 := by decide
  calc 2 ^ holes * (holes.choose hand + 1) ≤ 2 ^ 16 * (12870 + 1) := by gcongr
    _ < UInt32.size - 2 := by decide

/-- The size of the arena of a two-color lock, in either model. -/
theorem Expanded.size_lt_of_two {C : Type} [DecidableEq C] [Hashable C] [Coloring C] [Readable C]
    [Inspect C] {c : Config} {stepsFrom? : Position C → Option (List (Step C))} {hands : List Hand}
    {p : Puzzle C} {steps : List (List (Step C))} (expanded : p.Expanded c stepsFrom? steps)
    (model : Model c stepsFrom? hands) (two : c.colors.toNat = 2) :
    p.arena.size < UInt32.size - 2 := by
  obtain ⟨-, -, short, -, -⟩ := Config.bounds_of_check model.checked
  have few := expanded.size_le model.lawful
  rw [two] at few
  exact few.trans_lt (positions_two_lt short _)

/-- The verdict of a two-color lock that is built. -/
theorem verdict_twoColor {c : Config} {p : Puzzle Packed}
    (built : (twoColor c).run = some (.ok p)) : ∃ verdict, p.playerWins? = some verdict ∧
      (verdict ↔ Solvable c.holes.toNat c.hand.toNat 2) := by
  obtain ⟨model, steps, expanded⟩ := expanded_twoColor built
  exact exists_verdict model expanded (expanded.size_lt_of_two model rfl)

/-- The verdict of a many-color lock that is built within the range of location ids. -/
theorem verdict_manyColor {c : Config} {p : Puzzle Listed}
    (built : (manyColor c).run = some (.ok p))
    (fits : c.colors.toNat ^ c.holes.toNat * (c.holes.toNat.choose c.hand.toNat + 1) <
      UInt32.size - 2) : ∃ verdict, p.playerWins? = some verdict ∧
      (verdict ↔ Solvable c.holes.toNat c.hand.toNat c.colors.toNat) := by
  obtain ⟨model, steps, expanded⟩ := expanded_manyColor built
  exact exists_verdict model expanded ((expanded.size_le model.lawful).trans_lt fits)

/-- The verdict of either model says whether the puzzle is solvable, for every checked configuration
whose positions are within the range of location ids. A lock is built whenever the draw of its
initial coloring ends. -/
theorem playerWins?_iff_solvable (c : Config) :
    ({ c with colors := 2 }.check = .ok () →
      ((initial? { c with colors := 2 } : Option (Option (Position Packed))).isSome →
        ∃ p, (twoColor c).run = some (.ok p)) ∧
      ∀ p, (twoColor c).run = some (.ok p) → ∃ verdict, p.playerWins? = some verdict ∧
        (verdict ↔ Solvable c.holes.toNat c.hand.toNat 2)) ∧
    (c.check = .ok () →
      c.colors.toNat ^ c.holes.toNat * (c.holes.toNat.choose c.hand.toNat + 1) < UInt32.size - 2 →
      ((initial? c : Option (Option (Position Listed))).isSome →
        ∃ p, (manyColor c).run = some (.ok p)) ∧
      ∀ p, (manyColor c).run = some (.ok p) → ∃ verdict, p.playerWins? = some verdict ∧
        (verdict ↔ Solvable c.holes.toNat c.hand.toNat c.colors.toNat)) := by
  constructor
  · intro checked
    refine ⟨exists_twoColor checked, fun p built => ?_⟩
    have model := model_twoColor checked rfl
    obtain ⟨steps, expanded⟩ := expand_eq_ok (run_twoColor.1 built).2
    exact exists_verdict model expanded (expanded.size_lt_of_two model rfl)
  · intro checked few
    refine ⟨exists_manyColor checked, fun p built => ?_⟩
    have model := model_manyColor checked
    obtain ⟨steps, expanded⟩ := expand_eq_ok (run_manyColor.1 built).2
    exact exists_verdict model expanded ((expanded.size_le model.lawful).trans_lt few)

set_option maxRecDepth 10000 in
/-- Two holes and a hand of one: both models find that the player wins, in two turns. -/
theorem playerWins?_two_holes :
    (∃ p, (twoColor (.twoColor 2 1)).run = some (.ok p) ∧ p.playerWins? = some true) ∧
    ∃ p, (manyColor (.manyColor 2 1 2)).run = some (.ok p) ∧ p.playerWins? = some true := by
  have solvable : Solvable 2 1 2 := by
    have two_turns : ∀ (ring : Fin 2 → Fin 2) pending, Forces 1 2 ring pending := by decide +kernel
    exact fun ring pending _ _ => ⟨2, two_turns ring pending⟩
  constructor
  · obtain ⟨built, verdict⟩ := (playerWins?_iff_solvable (.twoColor 2 1)).1 (by decide)
    obtain ⟨p, run⟩ := built (by decide +kernel)
    obtain ⟨wins, answer, meaning⟩ := verdict p run
    exact ⟨p, run, by rw [answer, meaning.2 solvable]⟩
  · obtain ⟨built, verdict⟩ :=
      (playerWins?_iff_solvable (.manyColor 2 1 2)).2 (by decide) (by decide)
    obtain ⟨p, run⟩ := built (by decide +kernel)
    obtain ⟨wins, answer, meaning⟩ := verdict p run
    exact ⟨p, run, by rw [answer, meaning.2 solvable]⟩

end RingLock.Puzzle
