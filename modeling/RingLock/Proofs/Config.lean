import Mathlib.Algebra.Group.Nat.Defs
import RingLock.Config

/-!
# Sizes of checked configurations

The check bounds the sizes of a lock, and so small that no count of colorings leaves the range of a
machine word.
-/
namespace RingLock.Config

/-- The bounds of a checked configuration. -/
theorem bounds_of_check {c : Config} (h : c.check = .ok ()) :
    1 ≤ c.hand.toNat ∧ c.hand.toNat ≤ c.holes.toNat ∧ c.holes.toNat ≤ 16 ∧
      2 ≤ c.colors.toNat ∧ c.colors.toNat ≤ 8 := by
  have bounds := (check_eq_ok_iff c).1 h
  simp only [UInt64.le_iff_toNat_le] at bounds
  exact bounds

/-- A power of a base from 2 on is formed if it fits. -/
theorem power?_eq_some {base exponent : UInt64} (two_le : 2 ≤ base.toNat)
    (fits : base.toNat ^ exponent.toNat < UInt64.size) :
    power? base exponent = some (.ofNat (base.toNat ^ exponent.toNat)) := by
  have short : exponent.toNat < 64 := by
    refine Nat.lt_of_not_le fun long => Nat.not_lt.2 ?_ fits
    calc
      2 ^ 64 ≤ base.toNat ^ 64 := Nat.pow_le_pow_left two_le 64
      _ ≤ base.toNat ^ exponent.toNat := Nat.pow_le_pow_right (by omega) long
  have whole : exponent.toNat % UInt32.size = exponent.toNat :=
    Nat.mod_eq_of_lt (Nat.lt_trans short (by decide))
  have large : ¬base ≤ 1 := by
    rw [UInt64.le_iff_toNat_le]
    exact Nat.not_le.2 two_le
  rw [power?, whole, if_neg large, if_neg (Nat.not_le.2 short)]
  exact if_pos fits

/-- The powers of the colors that are formed for checked configurations. -/
theorem toNat_power?_colors {c : Config} (checked : c.check = .ok ()) {exponent : UInt64}
    (le : exponent ≤ c.holes) :
    (power? c.colors exponent).map UInt64.toNat = some (c.colors.toNat ^ exponent.toNat) := by
  obtain ⟨-, -, short, two_le, few⟩ := bounds_of_check checked
  rw [UInt64.le_iff_toNat_le] at le
  have fits : c.colors.toNat ^ exponent.toNat < UInt64.size := calc
    c.colors.toNat ^ exponent.toNat ≤ 8 ^ exponent.toNat := Nat.pow_le_pow_left few _
    _ ≤ 8 ^ 16 := Nat.pow_le_pow_right (by decide) (Nat.le_trans le short)
    _ < UInt64.size := by decide
  rw [power?_eq_some two_le fits, Option.map_some, UInt64.toNat_ofNat_of_lt' fits]

end RingLock.Config
