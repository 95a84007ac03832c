import Mathlib.Algebra.Group.Fin.Basic
import Mathlib.Algebra.Ring.Periodic
import Mathlib.Data.Finset.Card
import Mathlib.Data.Int.GCD
import Mathlib.Data.Nat.ModEq
import Mathlib.Data.Nat.Prime.Basic
import Mathlib.Tactic.Ring
import RingLock.Proofs.Puzzle.Verdict

/-!
# Bounds on the hand

What the sizes alone tell about the puzzle. With all holes but one in the hand, the player gives
them the color of the hole that is left over.

Against small hands the adversary has an invariant. Let a prime `p` divide the number of holes, and
put holes into one class if a multiple of `holes / p` lies between them. As long as some class shows
two colors, the ring is not solved. A small hand leaves two holes of one class free. Steps from one
of them to the other visit a whole class, because its size is prime. So some rotation puts two
different colors there, and they stay.
-/
namespace RingLock.Puzzle

variable {holes size colors : ℕ}

/-- With at most one hole outside the pending hand, the next turn solves the ring. -/
theorem forces_one_of_large (le : size ≤ holes) (ring : Fin holes → Fin colors)
    {pending : Finset (Fin holes)} (large : holes ≤ pending.card + 1) :
    Forces size 1 ring pending := by
  refine Or.inr fun amount => ?_
  obtain ⟨hand, -, full⟩ := Finset.exists_subset_card_eq
    (s := (Finset.univ : Finset (Fin holes))) (by simpa using le)
  -- The hole left over, if there is one, sets the color of all the others.
  have alone : ∀ i ∉ pending, ∀ j ∉ pending, i = j := by
    have few : pendingᶜ.card ≤ 1 := by
      rw [Finset.card_compl, Fintype.card_fin]
      omega
    intro i hi j hj
    exact Finset.card_le_one.1 few i (by simpa using hi) j (by simpa using hj)
  by_cases free : ∃ i, i ∉ pending
  · obtain ⟨i, hi⟩ := free
    refine ⟨fun _ => ring (i - amount), hand, fun j hj => ?_, full, fun _ _ => rfl⟩
    rw [alone i hi j hj]
  · push Not at free
    exact ⟨fun _ => ring amount, hand, fun j hj => absurd (free j) hj, full, fun _ _ => rfl⟩

/-- With at most one hole outside the hand, the player wins. -/
theorem solvable_of_large (le : size ≤ holes) (large : holes ≤ size + 1) :
    Solvable holes size colors := by
  intro ring pending _ fits
  rcases fits with full | rfl
  · exact ⟨1, forces_one_of_large le ring (full ▸ large)⟩
  · refine exists_forces fun amount => ?_
    obtain ⟨hand, -, full⟩ := Finset.exists_subset_card_eq
      (s := (Finset.univ : Finset (Fin holes))) (by simpa using le)
    exact ⟨fun i => ring (i - amount), hand, fun _ _ => rfl, full, 1,
      forces_one_of_large le _ (full ▸ large)⟩

/-- Some two holes a multiple of the spacing apart show different colors. -/
def Uneven (spacing : ℕ) (ring : Fin holes → Fin colors) : Prop :=
  ∃ i j : Fin holes, (i : ℕ) ≡ j [MOD spacing] ∧ ring i ≠ ring j

theorem Uneven.not_solved {spacing : ℕ} {ring : Fin holes → Fin colors} (h : Uneven spacing ring) :
    ¬Solved ring := by
  obtain ⟨i, j, -, differ⟩ := h
  exact fun solved => differ (solved i j)

/-- A hand that leaves more holes free than there are classes leaves two of one class. -/
theorem exists_free_pair {spacing : ℕ} (positive : 0 < spacing) {pending : Finset (Fin holes)}
    (few : pending.card + spacing < holes) :
    ∃ x ∉ pending, ∃ y ∉ pending, x ≠ y ∧ (x : ℕ) ≡ y [MOD spacing] := by
  have more : (Finset.range spacing).card < pendingᶜ.card := by
    rw [Finset.card_range, Finset.card_compl, Fintype.card_fin]
    omega
  obtain ⟨x, hx, y, hy, distinct, same⟩ := Finset.exists_ne_map_eq_of_card_lt_of_maps_to more
    (f := fun x : Fin holes => (x : ℕ) % spacing)
    (fun x _ => by simpa using Nat.mod_lt _ positive)
  exact ⟨x, by simpa using hx, y, by simpa using hy, distinct, same⟩

/-- The distance of two holes of one class is a multiple of the spacing. -/
theorem dvd_val_sub {spacing : ℕ} (whole : spacing ∣ holes) {x y : Fin holes}
    (same : (x : ℕ) ≡ y [MOD spacing]) : spacing ∣ ((y - x : Fin holes) : ℕ) := by
  have back : holes - x + y + x = holes + y := by omega
  have none_left : holes - x + y ≡ 0 [MOD spacing] := by
    apply Nat.ModEq.add_right_cancel' (x : ℕ)
    rw [back]
    exact ((Nat.modEq_zero_iff_dvd.2 whole).add_right _).trans (same.symm.add_left 0)
  rw [Fin.val_sub, Nat.dvd_mod_iff whole]
  exact Nat.modEq_zero_iff_dvd.1 none_left

section Classes

variable [NeZero holes]

theorem val_nsmul (k : ℕ) (d : Fin holes) : ((k • d : Fin holes) : ℕ) = k * d % holes := by
  induction k with
  | zero => simp
  | succ k ih => rw [succ_nsmul, Fin.val_add, ih, Nat.mod_add_mod, Nat.succ_mul]

/-- Repeated steps by one multiple of the spacing reach every other, because the number of multiples
is prime. -/
theorem exists_nsmul_eq {p spacing : ℕ} (prime : p.Prime) (whole : holes = p * spacing)
    {d e : Fin holes} (moves : d ≠ 0) (hd : spacing ∣ (d : ℕ)) (he : spacing ∣ (e : ℕ)) :
    ∃ k : ℕ, k • d = e := by
  obtain ⟨a, ha⟩ := hd
  obtain ⟨b, hb⟩ := he
  have nonzero : (d : ℕ) ≠ 0 := fun zero => moves (Fin.ext zero)
  have below : a < p := by
    have inside : spacing * a < spacing * p := by
      rw [← ha, Nat.mul_comm spacing p, ← whole]
      exact d.isLt
    exact Nat.lt_of_mul_lt_mul_left inside
  have coprime : a.Coprime p := by
    have positive : a ≠ 0 := fun zero => nonzero (by rw [ha, zero, Nat.mul_zero])
    exact (Nat.coprime_of_lt_prime positive below prime).symm
  obtain ⟨k, -, reached⟩ := Nat.exists_mul_mod_eq_of_coprime b coprime prime.ne_zero
  refine ⟨k, Fin.ext ?_⟩
  calc ((k • d : Fin holes) : ℕ) = spacing * (a * k) % (spacing * p) := by
        rw [val_nsmul, ha, whole, Nat.mul_comm p, Nat.mul_left_comm, Nat.mul_comm k a]
    _ = spacing * (b % p) := by rw [Nat.mul_mod_mul_left, reached]
    _ = spacing * b % (spacing * p) := (Nat.mul_mod_mul_left ..).symm
    _ = e := by rw [← hb, Nat.mul_comm spacing p, ← whole, Nat.mod_eq_of_lt e.isLt]

/-- Some rotation puts different colors on two given holes of one class. -/
theorem Uneven.exists_rotation {p spacing : ℕ} (prime : p.Prime) (whole : holes = p * spacing)
    {ring : Fin holes → Fin colors} (uneven : Uneven spacing ring) {x y : Fin holes}
    (distinct : x ≠ y) (same : (x : ℕ) ≡ y [MOD spacing]) :
    ∃ amount, ring (x - amount) ≠ ring (y - amount) := by
  have divides : spacing ∣ holes := whole ▸ Nat.dvd_mul_left spacing p
  obtain ⟨i, j, alike, differ⟩ := uneven
  by_contra equal
  push Not at equal
  have periodic : Function.Periodic ring (y - x) := by
    intro z
    have here := equal (x - z)
    rw [sub_sub_cancel, sub_sub_eq_add_sub, add_comm y z, add_sub_assoc] at here
    exact here.symm
  obtain ⟨k, reaches⟩ := exists_nsmul_eq prime whole (sub_ne_zero.2 distinct.symm)
    (dvd_val_sub divides same) (dvd_val_sub divides alike)
  have steps := periodic.nsmul k i
  rw [reaches, add_sub_cancel] at steps
  exact differ steps.symm

/-- One turn of the adversary: some rotation keeps the ring uneven, whatever the player makes of
it. -/
theorem Uneven.exists_turn {p spacing : ℕ} (prime : p.Prime) (whole : holes = p * spacing)
    {ring : Fin holes → Fin colors} (uneven : Uneven spacing ring) {pending : Finset (Fin holes)}
    (few : pending.card + spacing < holes) :
    ∃ amount, ∀ next, Reaches ring pending amount next → Uneven spacing next := by
  have positive : 0 < spacing := Nat.pos_of_mul_pos_left (whole ▸ Nat.pos_of_neZero holes)
  obtain ⟨x, hx, y, hy, distinct, same⟩ := exists_free_pair positive few
  obtain ⟨amount, differ⟩ := uneven.exists_rotation prime whole distinct same
  refine ⟨amount, fun next reaches => ⟨x, y, same, ?_⟩⟩
  rw [reaches x hx, reaches y hy]
  exact differ

/-- No number of turns solves an uneven ring with small hands. -/
theorem Uneven.not_forces {p spacing : ℕ} (prime : p.Prime) (whole : holes = p * spacing)
    (few : size + spacing < holes) (turns : ℕ) {ring : Fin holes → Fin colors}
    (uneven : Uneven spacing ring) {pending : Finset (Fin holes)} (fits : pending.card ≤ size) :
    ¬Forces size turns ring pending := by
  induction turns generalizing ring pending with
  | zero => exact uneven.not_solved
  | succ turns ih =>
    have few_pending : pending.card + spacing < holes := by omega
    obtain ⟨amount, keeps⟩ := uneven.exists_turn prime whole few_pending
    intro forces
    rcases forces with solved | answers
    · exact uneven.not_solved solved
    · obtain ⟨next, hand, reaches, full, rest⟩ := answers amount
      exact ih (keeps next reaches) full.le rest

end Classes

/-- A hand that is too small for some prime divisor of the number of holes does not suffice. -/
theorem not_solvable_of_prime_dvd {p : ℕ} (prime : p.Prime) (divides : p ∣ holes)
    (few : size * p < holes * (p - 1)) (two : 2 ≤ colors) : ¬Solvable holes size colors := by
  obtain ⟨spacing, whole⟩ := divides
  have inside : 0 < holes := Nat.pos_of_mul_pos_right ((Nat.zero_le _).trans_lt few)
  have : NeZero holes := ⟨inside.ne'⟩
  have free : size + spacing < holes := by
    have bound : size < spacing * (p - 1) := by
      apply Nat.lt_of_mul_lt_mul_right (a := p)
      calc size * p < holes * (p - 1) := few
        _ = spacing * (p - 1) * p := by rw [whole]; ring
    have parts : spacing * (p - 1) + spacing = holes := by
      rw [← Nat.mul_succ, Nat.succ_eq_add_one, Nat.sub_add_cancel prime.one_le, Nat.mul_comm, whole]
    omega
  have next_inside : spacing < holes := by omega
  let ring (i : Fin holes) : Fin colors := if i = 0 then ⟨0, by omega⟩ else ⟨1, by omega⟩
  have uneven : Uneven spacing ring := by
    refine ⟨0, ⟨spacing, next_inside⟩, by simp [Nat.ModEq], ?_⟩
    have positive : spacing ≠ 0 := fun zero => by simp [zero] at whole; omega
    have other : (⟨spacing, next_inside⟩ : Fin holes) ≠ 0 := fun zero =>
      positive (congrArg Fin.val zero)
    simp [ring, other]
  intro solvable
  obtain ⟨turns, forces⟩ := solvable ring ∅ uneven.not_solved (Or.inr rfl)
  exact uneven.not_forces prime whole free turns (by simp) forces

/-- What the sizes of a lock tell about its verdict. -/
structure WithinBounds (holes size : ℕ) (verdict : Prop) : Prop where
  wins : holes - 1 ≤ size → verdict
  loses : ∀ p, p.Prime → p ∣ holes → size * p < holes * (p - 1) → ¬verdict
  /-- On a prime number of holes nothing is left open. -/
  prime : holes.Prime → (verdict ↔ holes - 1 ≤ size)

theorem withinBounds_solvable (le : size ≤ holes) (two : 2 ≤ colors) :
    WithinBounds holes size (Solvable holes size colors) := by
  have wins (large : holes - 1 ≤ size) : Solvable holes size colors :=
    solvable_of_large le (by omega)
  have loses (p : ℕ) (prime : p.Prime) (divides : p ∣ holes)
      (few : size * p < holes * (p - 1)) : ¬Solvable holes size colors :=
    not_solvable_of_prime_dvd prime divides few two
  refine ⟨wins, loses, fun prime => ⟨fun solvable => ?_, wins⟩⟩
  by_contra small
  have few : size * holes < holes * (holes - 1) := by
    rw [Nat.mul_comm holes]
    exact Nat.mul_lt_mul_of_pos_right (Nat.lt_of_not_le small) prime.pos
  exact loses holes prime dvd_rfl few solvable

/-- The verdict of either model keeps to the bounds, for every checked configuration whose positions
are within the range of location ids, whatever the number of colors. -/
theorem playerWins?_withinBounds (c : Config) :
    ({ c with colors := 2 }.check = .ok () →
      ((initial? { c with colors := 2 } : Option (Option (Position Packed))).isSome →
        ∃ p, (twoColor c).run = some (.ok p)) ∧
      ∀ p, (twoColor c).run = some (.ok p) → ∃ verdict, p.playerWins? = some verdict ∧
        WithinBounds c.holes.toNat c.hand.toNat verdict) ∧
    (c.check = .ok () →
      c.colors.toNat ^ c.holes.toNat * (c.holes.toNat.choose c.hand.toNat + 1) < UInt32.size - 2 →
      ((initial? c : Option (Option (Position Listed))).isSome →
        ∃ p, (manyColor c).run = some (.ok p)) ∧
      ∀ p, (manyColor c).run = some (.ok p) → ∃ verdict, p.playerWins? = some verdict ∧
        WithinBounds c.holes.toNat c.hand.toNat verdict) := by
  constructor
  · intro checked
    refine ⟨exists_twoColor checked, fun p built => ?_⟩
    obtain ⟨-, le, -, two, -⟩ := Config.bounds_of_check checked
    obtain ⟨model, steps, expanded⟩ := expanded_twoColor built
    obtain ⟨verdict, answer, meaning⟩ :=
      exists_verdict model expanded (expanded.size_lt_of_two model rfl)
    exact ⟨verdict, answer, propext meaning ▸ withinBounds_solvable le two⟩
  · intro checked few
    refine ⟨exists_manyColor checked, fun p built => ?_⟩
    obtain ⟨-, le, -, two, -⟩ := Config.bounds_of_check checked
    obtain ⟨model, steps, expanded⟩ := expanded_manyColor built
    obtain ⟨verdict, answer, meaning⟩ :=
      exists_verdict model expanded ((expanded.size_le model.lawful).trans_lt few)
    exact ⟨verdict, answer, propext meaning ▸ withinBounds_solvable le two⟩

set_option maxRecDepth 10000 in
/-- Four holes and a hand of one, and three holes with three colors and a hand of two: the adversary
wins the first lock, the player the second. -/
theorem verdicts_of_four_and_three_holes :
    (∃ p, (twoColor (.twoColor 4 1)).run = some (.ok p) ∧ p.playerWins? = some false) ∧
    ∃ p, (manyColor (.manyColor 3 2 3)).run = some (.ok p) ∧ p.playerWins? = some true := by
  constructor
  · obtain ⟨built, verdict⟩ := (playerWins?_withinBounds (.twoColor 4 1)).1 (by decide)
    obtain ⟨p, run⟩ := built (by decide +kernel)
    obtain ⟨wins, answer, bounds⟩ := verdict p run
    have lost := bounds.loses 2 Nat.prime_two (by decide) (by decide)
    exact ⟨p, run, by rw [answer, Bool.eq_false_of_not_eq_true lost]⟩
  · obtain ⟨built, verdict⟩ :=
      (playerWins?_withinBounds (.manyColor 3 2 3)).2 (by decide) (by decide)
    obtain ⟨p, run⟩ := built (by decide +kernel)
    obtain ⟨wins, answer, bounds⟩ := verdict p run
    exact ⟨p, run, by rw [answer, bounds.wins (by decide)]⟩

end RingLock.Puzzle
