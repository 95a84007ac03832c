import Mathlib.Algebra.BigOperators.Group.List.Basic
import Mathlib.Algebra.Ring.Nat
import Mathlib.Data.Finset.Sort
import Mathlib.Data.Nat.Choose.Basic
import Mathlib.Tactic.MkIffOfInductiveProp
import RingLock.Hand

/-!
# Hands as sets of holes

The full hands of a ring are exactly the increasing lists of so many of its holes, and there are as
many as binomial coefficients say. As sets of holes they are all the sets of that size.
-/
namespace RingLock.Hand

/-- All holes of a hand belong to the ring. -/
def Inside (h : Hand) (holes : ℕ) : Prop := ∀ x ∈ h.holes, x.toNat < holes

instance (h : Hand) (holes : ℕ) : Decidable (h.Inside holes) := List.decidableBAll ..

/-- An increasing list of bytes between two bounds is no longer than their distance. -/
theorem length_le_of_increasing {xs : List UInt8} {low high : ℕ} (increasing : xs.Pairwise (· < ·))
    (inside : ∀ x ∈ xs, low ≤ x.toNat ∧ x.toNat < high) : xs.length ≤ high - low := by
  induction xs generalizing low with
  | nil => simp
  | cons x xs ih =>
    obtain ⟨above, increasing⟩ := List.pairwise_cons.1 increasing
    have here := inside x List.mem_cons_self
    have rest : xs.length ≤ high - (x.toNat + 1) := by
      refine ih increasing fun y hy => ⟨?_, (inside y (List.mem_cons_of_mem x hy)).2⟩
      exact UInt8.lt_iff_toNat_lt.1 (above y hy)
    rw [List.length_cons]
    omega

theorem toNat_ofNat_of_lt {holes hole : ℕ} (small : holes ≤ 256) (h : hole < holes) :
    (UInt8.ofNat hole).toNat = hole := UInt8.toNat_ofNat_of_lt' (h.trans_le small)

/-- The enumeration lists exactly the increasing lists of the given size. -/
theorem mem_increasingFrom {holes : ℕ} (small : holes ≤ 256) {size first : ℕ} {xs : List UInt8} :
    xs ∈ increasingFrom holes size first ↔ xs.length = size ∧ xs.Pairwise (· < ·) ∧
      ∀ x ∈ xs, first ≤ x.toNat ∧ x.toNat < holes := by
  induction size generalizing first xs with
  | zero =>
    rw [increasingFrom, List.mem_singleton]
    constructor
    · rintro rfl
      simp
    · rintro ⟨empty, -, -⟩
      exact List.length_eq_zero_iff.1 empty
  | succ size ih =>
    simp only [increasingFrom, List.mem_flatMap, List.mem_range'_1, List.mem_map, ih]
    constructor
    · rintro ⟨hole, bounds, ys, ⟨length, increasing, above⟩, rfl⟩
      have value := toNat_ofNat_of_lt small (show hole < holes by omega)
      refine ⟨by simp [length], List.pairwise_cons.2 ⟨fun y hy => ?_, increasing⟩, ?_⟩
      · rw [UInt8.lt_iff_toNat_lt, value]
        exact (above y hy).1
      · intro y hy
        rcases List.mem_cons.1 hy with rfl | later
        · omega
        · have := above y later
          omega
    · rintro ⟨length, increasing, inside⟩
      obtain ⟨x, ys, rfl⟩ := List.exists_cons_of_length_eq_add_one length
      obtain ⟨above, increasing⟩ := List.pairwise_cons.1 increasing
      have later : ∀ y ∈ ys, x.toNat + 1 ≤ y.toNat ∧ y.toNat < holes := fun y hy =>
        ⟨UInt8.lt_iff_toNat_lt.1 (above y hy), (inside y (List.mem_cons_of_mem x hy)).2⟩
      have here := inside x List.mem_cons_self
      have fill := length_le_of_increasing increasing later
      rw [List.length_cons] at length
      exact ⟨x.toNat, by omega, ys, ⟨by omega, increasing, later⟩, by simp⟩

theorem sum_choose_range' (size distance first : ℕ) :
    ((List.range' first (distance - size)).map fun hole =>
      (first + distance - (hole + 1)).choose size).sum = distance.choose (size + 1) := by
  induction distance generalizing first with
  | zero => simp
  | succ distance ih =>
    by_cases short : distance < size
    · have none_left : distance + 1 - size = 0 := by omega
      rw [none_left, Nat.choose_eq_zero_of_lt (by omega)]
      rfl
    · have one_more : distance + 1 - size = (distance - size) + 1 := by omega
      have shift : first + (distance + 1) = first + 1 + distance := by omega
      rw [one_more, List.range'_succ, List.map_cons, List.sum_cons, shift, ih (first + 1),
        Nat.choose_succ_succ]
      congr 2
      omega

theorem length_increasingFrom (holes size first : ℕ) :
    (increasingFrom holes size first).length = (holes - first).choose size := by
  induction size generalizing first with
  | zero => simp [increasingFrom]
  | succ size ih =>
    simp only [increasingFrom, List.length_flatMap, List.length_map, ih]
    by_cases inside : first ≤ holes
    · have count := sum_choose_range' size (holes - first) first
      rw [Nat.add_sub_cancel' inside] at count
      rwa [Nat.sub_right_comm]
    · have none_left : holes - size - first = 0 := by omega
      have distance : holes - first = 0 := by omega
      simp [none_left, distance]

theorem length_full (holes size : ℕ) : (full holes size).length = holes.choose size := by
  unfold full
  split
  · rw [Nat.choose_eq_zero_of_lt (by assumption)]
    rfl
  · rw [List.length_map, length_increasingFrom, Nat.sub_zero]

theorem length_options (holes size : ℕ) : (options holes size).length = holes.choose size + 1 := by
  simp [options, length_full]

/-- The full hands are exactly the increasing lists of so many holes of the ring. -/
theorem mem_full {holes : ℕ} (small : holes ≤ 256) {size : ℕ} {h : Hand} :
    h ∈ full holes size ↔ h.holes.length = size ∧ h.holes.Pairwise (· < ·) ∧
      ∀ x ∈ h.holes, x.toNat < holes := by
  have listed (xs : List UInt8) : xs ∈ increasingFrom holes size 0 ↔ _ := mem_increasingFrom small
  unfold full
  split
  case isTrue large =>
    simp only [List.not_mem_nil, false_iff]
    rintro ⟨length, increasing, inside⟩
    have := length_le_of_increasing increasing fun x hx => ⟨Nat.zero_le _, inside x hx⟩
    omega
  case isFalse =>
    cases h with
    | mk xs => simp [listed]

/-- So many holes of the ring, increasing. -/
@[mk_iff] structure Fills (h : Hand) (holes size : ℕ) : Prop where
  length : h.holes.length = size
  increasing : h.holes.Pairwise (· < ·)
  inside : ∀ x ∈ h.holes, x.toNat < holes

instance (h : Hand) (holes size : ℕ) : Decidable (h.Fills holes size) :=
  haveI : Decidable (∀ x ∈ h.holes, x.toNat < holes) := List.decidableBAll ..
  decidable_of_iff _ (fills_iff h holes size).symm

theorem mem_full_iff_fills {holes : ℕ} (small : holes ≤ 256) {size : ℕ} {h : Hand} :
    h ∈ full holes size ↔ h.Fills holes size := by
  rw [mem_full small, fills_iff]

theorem mem_options_iff_fills {holes : ℕ} (small : holes ≤ 256) {size : ℕ} {h : Hand} :
    h ∈ options holes size ↔ h.Fills holes size ∨ h = empty := by
  rw [mem_options, mem_full_iff_fills small]

/-- Different holes, in increasing order, are a hand. -/
theorem fills_mergeSort {xs : List UInt8} {holes : ℕ} (distinct : xs.Nodup)
    (inside : ∀ x ∈ xs, x.toNat < holes) : Fills ⟨xs.mergeSort⟩ holes xs.length := by
  have same : xs.mergeSort.Perm xs := List.mergeSort_perm ..
  constructor
  case length => exact same.length_eq
  case increasing =>
    have sorted : xs.mergeSort.Pairwise (· ≤ ·) := List.pairwise_mergeSort' (· ≤ ·) xs
    exact sorted.imp₂ (fun a b le ne => UInt8.lt_of_le_of_ne le ne) (same.nodup_iff.2 distinct)
  case inside => exact fun x member => inside x (same.mem_iff.1 member)

theorem inside_of_mem_options {holes size : ℕ} (small : holes ≤ 256) {h : Hand}
    (option : h ∈ options holes size) : ∀ x ∈ h.holes, x.toNat < holes := by
  rcases mem_options.1 option with full | rfl
  · exact ((mem_full small).1 full).2.2
  · simp [empty]

theorem size_le_of_mem_options {holes size : ℕ} {h : Hand} (option : h ∈ options holes size) :
    h.size ≤ size := by
  rcases mem_options.1 option with full | rfl
  · exact (size_of_mem_full full).le
  · exact Nat.zero_le size

/-- The holes of a ring that a hand holds. -/
def set (holes : ℕ) (h : Hand) : Finset (Fin holes) :=
  Finset.univ.filter fun i => UInt8.ofNat i ∈ h.holes

@[simp] theorem mem_set {holes : ℕ} {h : Hand} {i : Fin holes} :
    i ∈ h.set holes ↔ UInt8.ofNat i ∈ h.holes := by simp [set]

@[simp] theorem set_empty (holes : ℕ) : empty.set holes = ∅ := by
  ext i
  simp [empty]

theorem card_set {holes : ℕ} (small : holes ≤ 256) {size : ℕ} {h : Hand}
    (full : h ∈ full holes size) : (h.set holes).card = size := by
  obtain ⟨length, increasing, inside⟩ := (mem_full small).1 full
  have nodup : h.holes.Nodup := increasing.imp fun less => UInt8.ne_of_lt less
  rw [← length, ← List.toFinset_card_of_nodup nodup]
  apply Finset.card_bij fun (i : Fin holes) _ => UInt8.ofNat i
  · intro i hi
    simpa using hi
  · intro i _ j _ same
    have values := congrArg UInt8.toNat same
    rw [toNat_ofNat_of_lt small i.isLt, toNat_ofNat_of_lt small j.isLt] at values
    exact Fin.ext values
  · intro x hx
    have held : x ∈ h.holes := by simpa using hx
    exact ⟨⟨x.toNat, inside x held⟩, by simpa using held, by simp⟩

/-- Every set of so many holes is that of a full hand. -/
theorem exists_full_of_card {holes : ℕ} (small : holes ≤ 256) (s : Finset (Fin holes)) :
    ∃ h ∈ full holes s.card, h.set holes = s := by
  let xs := s.sort.map fun i : Fin holes => UInt8.ofNat i
  have value (i : Fin holes) : (UInt8.ofNat i).toNat = i := toNat_ofNat_of_lt small i.isLt
  have held (i : Fin holes) : UInt8.ofNat i ∈ xs ↔ i ∈ s := by
    constructor
    · intro member
      obtain ⟨j, hj, same⟩ := List.mem_map.1 member
      have values := congrArg UInt8.toNat same
      rw [value, value] at values
      obtain rfl := Fin.ext values
      simpa using hj
    · intro member
      exact List.mem_map.2 ⟨i, by simpa using member, rfl⟩
  refine ⟨⟨xs⟩, (mem_full small).2 ⟨by simp [xs], ?_, ?_⟩, ?_⟩
  · refine List.pairwise_map.2 ((Finset.sortedLT_sort s).pairwise.imp fun {i j} less => ?_)
    rw [UInt8.lt_iff_toNat_lt, value, value]
    exact less
  · intro x hx
    obtain ⟨i, -, rfl⟩ := List.mem_map.1 hx
    rw [value]
    exact i.isLt
  · ext i
    rw [mem_set, held]

end RingLock.Hand
