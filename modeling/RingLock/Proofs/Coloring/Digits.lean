import Mathlib.Data.Nat.Digits.Defs
import RingLock.Proofs.Coloring.Listed
import RingLock.Proofs.Coloring.Packed

/-!
# Colorings as numbers

The colors of a ring are the digits of a number. Colorings are enumerated in the order of these
numbers, from zero on and without a gap. In a packed coloring hole 0 is the least significant digit,
in a listed coloring the most significant one.
-/
namespace RingLock

/-- An item of a list that is put together from parts of one length. -/
theorem getElem?_flatMap_eq_some {α β : Type} {f : α → List β} {size : ℕ} {xs : List α}
    (even : ∀ x ∈ xs, (f x).length = size) {k : ℕ} {y : β} :
    (xs.flatMap f)[k]? = some y ↔
      ∃ i j x, xs[i]? = some x ∧ (f x)[j]? = some y ∧ k = i * size + j := by
  induction xs generalizing k with
  | nil => simp
  | cons x xs ih =>
    obtain ⟨first, later⟩ := List.forall_mem_cons.1 even
    rw [List.flatMap_cons, List.getElem?_append, first]
    constructor
    · intro there
      split at there
      case isTrue => exact ⟨0, k, x, rfl, there, by omega⟩
      case isFalse beyond =>
        obtain ⟨i, j, z, among, part, place⟩ := (ih later).1 there
        refine ⟨i + 1, j, z, among, part, ?_⟩
        rw [Nat.succ_mul]
        omega
    · rintro ⟨- | i, j, z, among, part, rfl⟩
      · obtain rfl := Option.some.inj among
        have inside := (List.getElem?_eq_some_iff.1 part).1
        rw [if_pos (by omega), Nat.zero_mul, Nat.zero_add]
        exact part
      · rw [if_neg (by rw [Nat.succ_mul]; omega)]
        refine (ih later).2 ⟨i, j, z, among, part, ?_⟩
        rw [Nat.succ_mul]
        omega

/-- What is enumerated at the place of its number is enumerated there alone. -/
theorem getElem?_eq_some_iff_of_number {α : Type} {xs : List α} {number : α → ℕ}
    (placed : ∀ i x, xs[i]? = some x → number x = i) {i : ℕ} {x : α} :
    xs[i]? = some x ↔ x ∈ xs ∧ number x = i := by
  constructor
  · exact fun there => ⟨List.mem_of_getElem? there, placed i x there⟩
  · rintro ⟨member, rfl⟩
    obtain ⟨j, there⟩ := List.getElem?_of_mem member
    rwa [placed j x there]

/-- The colors of a ring, hole by hole. -/
def Coloring.digits {C : Type} [Coloring C] [Readable C] (c : C) (holes : ℕ) : List ℕ :=
  (List.range holes).map fun i => ((Readable.color? c i).map UInt8.toNat).getD 0

namespace Packed

theorem toNat_shade (word : UInt32) (i : ℕ) :
    (shade (bit word i)).toNat = word.toNat / 2 ^ i % 2 := by
  rw [← Nat.toNat_testBit]
  change (shade (bit word i)).toNat = (bit word i).toNat
  cases bit word i <;> rfl

/-- The digits are those of the word. -/
theorem ofDigits_digits (c : Packed) {holes : ℕ} (h : holes ≤ 32) :
    Nat.ofDigits 2 (Coloring.digits c holes) = c.bits.toNat % 2 ^ holes := by
  induction holes with
  | zero => simp [Coloring.digits, Nat.mod_one]
  | succ holes ih =>
    have shown : Readable.color? c holes = some (shade (bit c.bits holes)) :=
      color?_of_lt c (by omega)
    have digits : Coloring.digits c (holes + 1) =
        Coloring.digits c holes ++ [c.bits.toNat / 2 ^ holes % 2] := by
      simp [Coloring.digits, List.range_succ, shown, toNat_shade]
    rw [digits, Nat.ofDigits_append, ih (by omega), Nat.ofDigits_singleton, Nat.mod_pow_succ]
    simp [Coloring.digits]

theorem toNat_of_getElem?_words {holes i : ℕ} (h : holes ≤ 32) {word : UInt32}
    (there : (words holes)[i]? = some word) : word.toNat = i := by
  obtain ⟨n, among, rfl⟩ := Option.map_eq_some_iff.1 (List.getElem?_map.symm.trans there)
  obtain ⟨inside, rfl⟩ := List.getElem?_eq_some_iff.1 among
  have width : 2 ^ holes ≤ 2 ^ 32 := Nat.pow_le_pow_right (by decide) h
  rw [List.length_range, toNat_mask h] at inside
  rw [List.getElem_range]
  exact UInt32.toNat_ofNat_of_lt' (by rw [UInt32.size]; omega)

/-- The packed coloring at a place has the place as its number, hole 0 least significant. -/
theorem getElem?_all {holes colors : ℕ} (h : holes ≤ 32) {i : ℕ} {c : Packed} :
    (Coloring.all holes colors : List Packed)[i]? = some c ↔
      c.bits.toNat < 2 ^ holes ∧ Nat.ofDigits 2 (Coloring.digits c holes) = i := by
  have placed (i : ℕ) (d : Packed)
      (there : (Coloring.all holes colors : List Packed)[i]? = some d) :
      Nat.ofDigits 2 (Coloring.digits d holes) = i := by
    obtain ⟨word, among, rfl⟩ := Option.map_eq_some_iff.1 (List.getElem?_map.symm.trans there)
    have bounded := (mem_words h).1 (List.mem_of_getElem? among)
    rw [ofDigits_digits _ h, Nat.mod_eq_of_lt bounded]
    exact toNat_of_getElem?_words h among
  rw [getElem?_eq_some_iff_of_number placed, mem_all, mem_words h]

end Packed

namespace Listed

theorem digits_eq {c : Listed} {holes : ℕ} (long : c.colors.length = holes) :
    Coloring.digits c holes = c.colors.map UInt8.toNat := by
  subst long
  apply List.ext_getElem
  · simp [Coloring.digits]
  · intro i inside inside'
    rw [List.length_map] at inside'
    simp [Coloring.digits, color?_eq, inside']

/-- The first entry of a list weighs most. -/
theorem ofDigits_of_getElem?_tuples {colors : ℕ} (small : colors < 256) {length i : ℕ}
    {xs : List UInt8} (there : (tuples colors length)[i]? = some xs) :
    Nat.ofDigits colors (xs.map UInt8.toNat).reverse = i := by
  induction length generalizing i xs with
  | zero =>
    obtain ⟨inside, rfl⟩ := List.getElem?_eq_some_iff.1 there
    obtain rfl : i = 0 := by simpa using inside
    rfl
  | succ length ih =>
    rw [tuples_succ, Nat.mod_eq_of_lt small, getElem?_flatMap_eq_some fun color _ =>
      (List.length_map ..).trans (length_tuples small length)] at there
    obtain ⟨color, j, same, among, part, rfl⟩ := there
    obtain ⟨bounded, rfl⟩ := List.getElem?_eq_some_iff.1 among
    obtain ⟨ys, rest, rfl⟩ := Option.map_eq_some_iff.1 (List.getElem?_map.symm.trans part)
    have long := length_of_mem_tuples (List.mem_of_getElem? rest)
    rw [List.length_range] at bounded
    rw [List.map_cons, List.reverse_cons, Nat.ofDigits_append, ih rest, Nat.ofDigits_singleton,
      List.length_reverse, List.length_map, long, List.getElem_range,
      UInt8.toNat_ofNat_of_lt' (bounded.trans small), Nat.add_comm, Nat.mul_comm]

/-- The listed coloring at a place has the place as its number, hole 0 most significant. -/
theorem getElem?_all {holes colors : ℕ} (small : colors < 256) {i : ℕ} {c : Listed} :
    (Coloring.all holes colors : List Listed)[i]? = some c ↔
      (c.colors.length = holes ∧ ∀ x ∈ c.colors, x.toNat < colors) ∧
        Nat.ofDigits colors (Coloring.digits c holes).reverse = i := by
  have placed (i : ℕ) (d : Listed)
      (there : (Coloring.all holes colors : List Listed)[i]? = some d) :
      Nat.ofDigits colors (Coloring.digits d holes).reverse = i := by
    obtain ⟨xs, among, rfl⟩ := Option.map_eq_some_iff.1 (List.getElem?_map.symm.trans there)
    rw [digits_eq (length_of_mem_tuples (List.mem_of_getElem? among))]
    exact ofDigits_of_getElem?_tuples small among
  rw [getElem?_eq_some_iff_of_number placed, mem_all small]

end Listed

end RingLock
