import RingLock.Proofs.Puzzle.Bounds

/-!
# Larger hands and fewer colors

A player who wins with some hand wins with a larger one as well: the added holes may keep their
colors. A player who wins over some alphabet wins over a smaller one: its colors are among those of
the larger alphabet, and a win there is still one when the colors are seen through a map that keeps
these and sends the others to some of them. So the verdict is monotone in the hand and antitone in
the alphabet, whatever the seeds.
-/
namespace RingLock.Puzzle

variable {holes size colors : ℕ}

theorem Solvable.of_size_le {larger : ℕ} (le : size ≤ larger) (fits : larger ≤ holes)
    (h : Solvable holes size colors) : Solvable holes larger colors := by
  intro ring pending mixed _
  obtain ⟨turns, forces⟩ := h ring ∅ mixed (Or.inr rfl)
  exact ⟨turns, (forces.of_size_le le fits).of_subset (Finset.empty_subset pending)⟩

theorem Solvable.of_colors_le {fewer : ℕ} [NeZero fewer] (le : fewer ≤ colors)
    (h : Solvable holes size colors) : Solvable holes size fewer := by
  intro ring pending mixed fits
  have kept : Fin.ofNat fewer ∘ Fin.val ∘ Fin.castLE le ∘ ring = ring := by
    funext i
    exact Fin.ofNat_val_eq_self (ring i)
  have mixed' : ¬Solved (Fin.castLE le ∘ ring) := fun solved =>
    mixed fun i j => Fin.castLE_injective le (solved i j)
  obtain ⟨turns, forces⟩ := h (Fin.castLE le ∘ ring) pending mixed' fits
  exact ⟨turns, kept ▸ forces.map (Fin.ofNat fewer ∘ Fin.val)⟩

/-- Of two locks with the same number of holes, the one with the larger hand and the fewer colors is
won if the other is. This holds in either model for all checked configurations whose positions are
within the range of location ids, and both verdicts are given. Each lock is built whenever the draw
of its initial coloring ends. -/
theorem playerWins?_mono (c d : Config) (ring : c.holes = d.holes) (hand : c.hand ≤ d.hand) :
    ({ c with colors := 2 }.check = .ok () → { d with colors := 2 }.check = .ok () →
      ((initial? { c with colors := 2 } : Option (Option (Position Packed))).isSome →
        ∃ p, (twoColor c).run = some (.ok p)) ∧
      ((initial? { d with colors := 2 } : Option (Option (Position Packed))).isSome →
        ∃ q, (twoColor d).run = some (.ok q)) ∧
      ∀ p q, (twoColor c).run = some (.ok p) → (twoColor d).run = some (.ok q) →
        ∃ wins wins', p.playerWins? = some wins ∧ q.playerWins? = some wins' ∧
          (wins → wins')) ∧
    (c.check = .ok () → d.check = .ok () → d.colors ≤ c.colors →
      c.colors.toNat ^ c.holes.toNat * (c.holes.toNat.choose c.hand.toNat + 1) < UInt32.size - 2 →
      d.colors.toNat ^ d.holes.toNat * (d.holes.toNat.choose d.hand.toNat + 1) < UInt32.size - 2 →
      ((initial? c : Option (Option (Position Listed))).isSome →
        ∃ p, (manyColor c).run = some (.ok p)) ∧
      ((initial? d : Option (Option (Position Listed))).isSome →
        ∃ q, (manyColor d).run = some (.ok q)) ∧
      ∀ p q, (manyColor c).run = some (.ok p) → (manyColor d).run = some (.ok q) →
        ∃ wins wins', p.playerWins? = some wins ∧ q.playerWins? = some wins' ∧
          (wins → wins')) := by
  have le : c.hand.toNat ≤ d.hand.toNat := UInt64.le_iff_toNat_le.1 hand
  constructor
  · intro checked checked'
    refine ⟨exists_twoColor checked, exists_twoColor checked', fun p q hp hq => ?_⟩
    obtain ⟨-, fits, -, -, -⟩ := Config.bounds_of_check checked'
    obtain ⟨wins, answer, meaning⟩ := verdict_twoColor hp
    obtain ⟨wins', answer', meaning'⟩ := verdict_twoColor hq
    refine ⟨wins, wins', answer, answer', fun won => meaning'.2 ?_⟩
    have solvable := meaning.1 won
    rw [ring] at solvable
    exact solvable.of_size_le le fits
  · intro checked checked' fewer small small'
    refine ⟨exists_manyColor checked, exists_manyColor checked', fun p q hp hq => ?_⟩
    obtain ⟨-, fits, -, two, -⟩ := Config.bounds_of_check checked'
    have : NeZero d.colors.toNat := ⟨by omega⟩
    obtain ⟨wins, answer, meaning⟩ := verdict_manyColor hp small
    obtain ⟨wins', answer', meaning'⟩ := verdict_manyColor hq small'
    refine ⟨wins, wins', answer, answer', fun won => meaning'.2 ?_⟩
    have solvable := meaning.1 won
    rw [ring] at solvable
    exact (solvable.of_size_le le fits).of_colors_le (UInt64.le_iff_toNat_le.1 fewer)

set_option maxRecDepth 10000 in
/-- On three holes a hand of two wins over three colors. So a hand of three wins over two, whatever
its seed. -/
theorem playerWins?_of_three_holes : ∃ p q, (manyColor (.manyColor 3 2 3)).run = some (.ok p) ∧
    (manyColor { Config.manyColor 3 3 2 with seed := 7 }).run = some (.ok q) ∧
    p.playerWins? = some true ∧ q.playerWins? = some true := by
  obtain ⟨first, second, mono⟩ := (playerWins?_mono (.manyColor 3 2 3)
    { Config.manyColor 3 3 2 with seed := 7 } rfl (by decide)).2 (by decide) (by decide) (by decide)
    (by decide) (by decide)
  obtain ⟨p, hp⟩ := first (by decide +kernel)
  obtain ⟨q, hq⟩ := second (by decide +kernel)
  obtain ⟨wins, answer, meaning⟩ := verdict_manyColor hp (by decide)
  obtain rfl : wins = true := meaning.2 (solvable_of_large (by decide) (by decide))
  obtain ⟨won, won', again, answer', more⟩ := mono p q hp hq
  obtain rfl : won = true := Option.some.inj (again.symm.trans answer)
  exact ⟨p, q, hp, hq, answer, answer'.trans (congrArg some (more rfl))⟩

end RingLock.Puzzle
