import Mathlib.Data.Fintype.Pi
import Mathlib.Data.Fintype.Powerset
import Mathlib.Data.Finset.Lattice.Fold

/-!
# The puzzle as a game

The puzzle itself, without any machine in it. A position is what the holes show and which of them
await recoloring. In a turn the adversary, who sees the position, rotates the ring. Then the player
gives the pending holes any colors and picks the next hand. The player wants all holes to show one
color.
-/
namespace RingLock.Puzzle

variable {holes colors : ℕ}

/-- All holes show one color. -/
def Solved (ring : Fin holes → Fin colors) : Prop := ∀ i j, ring i = ring j

/-- What the player can make of a ring that was rotated by an amount: the color of hole `i` has
moved to hole `i + amount`, and the pending holes show anything. -/
def Reaches (ring : Fin holes → Fin colors) (pending : Finset (Fin holes)) (amount : Fin holes)
    (next : Fin holes → Fin colors) : Prop :=
  ∀ i ∉ pending, next i = ring (i - amount)

/-- The player can force a ring of one color within so many turns, whatever the rotations are, with
hands of a given size. -/
def Forces (size : ℕ) : ℕ → (Fin holes → Fin colors) → Finset (Fin holes) → Prop
  | 0, ring, _ => Solved ring
  | turns + 1, ring, pending => Solved ring ∨ ∀ amount, ∃ next hand,
      Reaches ring pending amount next ∧ hand.card = size ∧ Forces size turns next hand

/-- From every ring of more than one color and every pending hand, full or none, the player can
force a ring of one color in finitely many turns. -/
def Solvable (holes size colors : ℕ) : Prop :=
  ∀ (ring : Fin holes → Fin colors) (pending : Finset (Fin holes)), ¬Solved ring →
    pending.card = size ∨ pending = ∅ → ∃ turns, Forces size turns ring pending

instance (ring : Fin holes → Fin colors) : Decidable (Solved ring) :=
  inferInstanceAs (Decidable (∀ i j, ring i = ring j))

instance (ring : Fin holes → Fin colors) (pending : Finset (Fin holes)) (amount : Fin holes)
    (next : Fin holes → Fin colors) : Decidable (Reaches ring pending amount next) :=
  inferInstanceAs (Decidable (∀ i ∉ pending, next i = ring (i - amount)))

/-- Whether so many turns are enough can be tried out. -/
instance decidableForces (size : ℕ) : (turns : ℕ) → (ring : Fin holes → Fin colors) →
    (pending : Finset (Fin holes)) → Decidable (Forces size turns ring pending)
  | 0, ring, _ => inferInstanceAs (Decidable (Solved ring))
  | turns + 1, ring, pending =>
    have (next : Fin holes → Fin colors) (hand : Finset (Fin holes)) :
        Decidable (Forces size turns next hand) := decidableForces size turns next hand
    inferInstanceAs (Decidable (Solved ring ∨ ∀ amount, ∃ next hand,
      Reaches ring pending amount next ∧ hand.card = size ∧ Forces size turns next hand))

variable {size : ℕ} {ring : Fin holes → Fin colors} {pending : Finset (Fin holes)}

theorem Forces.succ {turns : ℕ} (h : Forces size turns ring pending) :
    Forces size (turns + 1) ring pending := by
  induction turns generalizing ring pending with
  | zero => exact Or.inl h
  | succ turns ih =>
    rcases h with solved | answers
    · exact Or.inl solved
    · refine Or.inr fun amount => ?_
      obtain ⟨next, hand, reaches, full, forces⟩ := answers amount
      exact ⟨next, hand, reaches, full, ih forces⟩

theorem Forces.mono {turns more : ℕ} (h : Forces size turns ring pending) (le : turns ≤ more) :
    Forces size more ring pending := by
  induction more, le using Nat.le_induction with
  | base => exact h
  | succ more _ ih => exact ih.succ

/-- A larger pending hand is no disadvantage: the added holes may keep their colors. -/
theorem Forces.of_subset {turns : ℕ} {fewer : Finset (Fin holes)} (le : fewer ⊆ pending)
    (h : Forces size turns ring fewer) : Forces size turns ring pending := by
  cases turns with
  | zero => exact h
  | succ turns =>
    rcases h with solved | answers
    · exact Or.inl solved
    · refine Or.inr fun amount => ?_
      obtain ⟨next, hand, reaches, full, forces⟩ := answers amount
      exact ⟨next, hand, fun i free => reaches i fun held => free (le held), full, forces⟩

/-- Larger hands are no disadvantage: the added holes may keep their colors. -/
theorem Forces.of_size_le {turns larger : ℕ} (le : size ≤ larger) (fits : larger ≤ holes)
    (h : Forces size turns ring pending) : Forces larger turns ring pending := by
  induction turns generalizing ring pending with
  | zero => exact h
  | succ turns ih =>
    rcases h with solved | answers
    · exact Or.inl solved
    · refine Or.inr fun amount => ?_
      obtain ⟨next, hand, reaches, full, forces⟩ := answers amount
      obtain ⟨more, inside, card⟩ : ∃ more, hand ⊆ more ∧ more.card = larger :=
        Finset.exists_superset_card_eq (full ▸ le) (by rwa [Fintype.card_fin])
      exact ⟨next, more, reaches, card, (ih forces).of_subset inside⟩

/-- What can be forced can be forced while the colors are seen through a map. -/
theorem Forces.map {turns colors' : ℕ} (f : Fin colors → Fin colors')
    (h : Forces size turns ring pending) : Forces size turns (f ∘ ring) pending := by
  have seen {ring : Fin holes → Fin colors} (solved : Solved ring) : Solved (f ∘ ring) :=
    fun i j => congrArg f (solved i j)
  induction turns generalizing ring pending with
  | zero => exact seen h
  | succ turns ih =>
    rcases h with solved | answers
    · exact Or.inl (seen solved)
    · refine Or.inr fun amount => ?_
      obtain ⟨next, hand, reaches, full, forces⟩ := answers amount
      exact ⟨f ∘ next, hand, fun i free => congrArg f (reaches i free), full, ih forces⟩

/-- There are finitely many rotations, so answers that each win in some number of turns win in one
number of turns. -/
theorem exists_forces
    (answers : ∀ amount, ∃ next hand, Reaches ring pending amount next ∧ hand.card = size ∧
      ∃ turns, Forces size turns next hand) :
    ∃ turns, Forces size turns ring pending := by
  choose next hand reaches full turns forces using answers
  refine ⟨Finset.univ.sup turns + 1, Or.inr fun amount => ?_⟩
  have enough : turns amount ≤ Finset.univ.sup turns := Finset.le_sup (Finset.mem_univ amount)
  exact ⟨next amount, hand amount, reaches amount, full amount, (forces amount).mono enough⟩

/-- Where the player cannot win, some rotation leaves only answers from which the player cannot
win. -/
theorem exists_evasion (lost : ∀ turns, ¬Forces size turns ring pending) :
    ∃ amount, ∀ next hand, Reaches ring pending amount next → hand.card = size →
      ∀ turns, ¬Forces size turns next hand := by
  by_contra none_evades
  push Not at none_evades
  obtain ⟨turns, forces⟩ := exists_forces none_evades
  exact lost turns forces

end RingLock.Puzzle
