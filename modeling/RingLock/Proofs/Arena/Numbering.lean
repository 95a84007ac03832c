import Mathlib.Data.List.Induction
import Mathlib.Data.List.Nodup
import Mathlib.Data.List.Perm.Subperm
import RingLock.Arena.Numbering

/-!
# Numbered lists

Numbering a list drops the later repetitions of its items and keeps their order. So a list without
repetitions stays as it is, and no numbering is longer than its list. A numbering is determined by
the list that it shows.
-/
namespace RingLock.Numbering

variable {α : Type} [DecidableEq α] [Hashable α]

theorem size_eq_length (n : Numbering α) : n.size = n.toList.length := by simp [size, toList]

theorem getElem?_toList (n : Numbering α) (i : ℕ) : n.toList[i]? = n.get? i :=
  Array.getElem?_toList

theorem find?_inj {n : Numbering α} {x y : α} {i : ℕ} (hx : n.find? x = some i)
    (hy : n.find? y = some i) : x = y := by
  rw [find?_eq_some_iff] at hx hy
  exact Option.some.inj (hx.symm.trans hy)

theorem exists_find? {n : Numbering α} {x : α} (h : x ∈ n.toList) : ∃ i, n.find? x = some i :=
  Option.isSome_iff_exists.1 ((find?_isSome_iff n x).2 h)

theorem find?_eq_none_iff {n : Numbering α} {x : α} : n.find? x = none ↔ x ∉ n.toList := by
  rw [← find?_isSome_iff, Option.not_isSome_iff_eq_none]

theorem mem_of_find? {n : Numbering α} {x : α} {i : ℕ} (h : n.find? x = some i) : x ∈ n.toList :=
  (find?_isSome_iff n x).1 (by simp [h])

/-- The item at a place below the size. -/
theorem exists_of_lt_size {n : Numbering α} {i : ℕ} (h : i < n.size) : ∃ x, n.find? x = some i := by
  have inside : i < n.items.size := h
  exact ⟨n.items[i], by rw [find?_eq_some_iff, get?]; simp [inside]⟩

theorem length_foldl_add_le (xs : List α) (n : Numbering α) :
    (xs.foldl add n).toList.length ≤ n.toList.length + xs.length := by
  induction xs generalizing n with
  | nil => simp
  | cons x xs ih =>
    have step := ih (n.add x)
    have one : (n.add x).toList.length ≤ n.toList.length + 1 := by
      rw [toList_add]
      split <;> simp
    rw [List.foldl_cons, List.length_cons]
    omega

theorem size_ofList_le (xs : List α) : (ofList xs).size ≤ xs.length := by
  have := length_foldl_add_le xs empty
  simpa [ofList, size_eq_length, empty, toList] using this

theorem toList_foldl_add {xs : List α} {n : Numbering α} (h : (n.toList ++ xs).Nodup) :
    (xs.foldl add n).toList = n.toList ++ xs := by
  induction xs generalizing n with
  | nil => simp
  | cons x xs ih =>
    have fresh : x ∉ n.toList := fun member =>
      (List.nodup_append.1 h).2.2 x member x List.mem_cons_self rfl
    have appended : (n.add x).toList = n.toList ++ [x] := by rw [toList_add, if_neg fresh]
    rw [List.foldl_cons, ih (by simpa [appended] using h), appended]
    simp

theorem toList_ofList {xs : List α} (h : xs.Nodup) : (ofList xs).toList = xs := by
  rw [ofList, toList_foldl_add (by simpa [empty, toList] using h)]
  simp [empty, toList]

theorem size_ofList {xs : List α} (h : xs.Nodup) : (ofList xs).size = xs.length := by
  rw [size_eq_length, toList_ofList h]

/-- Numbering a list drops later repetitions and nothing else. -/
theorem toList_ofList_eq_eraseDups (xs : List α) : (ofList xs).toList = xs.eraseDups := by
  induction xs using List.reverseRecOn with
  | nil => rfl
  | append_singleton xs x ih =>
    have last : ofList (xs ++ [x]) = (ofList xs).add x := by simp [ofList]
    rw [last, toList_add, List.eraseDups_append, ih]
    by_cases known : x ∈ xs
    · simp [List.removeAll, known]
    · simp [List.removeAll, known, List.eraseDups_cons]

theorem size_ofList_eq_length_eraseDups (xs : List α) :
    (ofList xs).size = xs.eraseDups.length := by
  rw [size_eq_length, toList_ofList_eq_eraseDups]

theorem nodup_toList (n : Numbering α) : n.toList.Nodup := by
  rw [List.nodup_iff_injective_get]
  intro i j same
  have place : ∀ k : Fin n.toList.length, n.get? k = some (n.toList.get k) := by
    intro k
    rw [← getElem?_toList]
    exact List.getElem?_eq_getElem k.isLt
  exact Fin.ext (get?_inj (place i) (same ▸ place j))

/-- A list is as long as its numbering only if it has no repetitions. -/
theorem size_ofList_eq_iff {xs : List α} : (ofList xs).size = xs.length ↔ xs.Nodup := by
  constructor
  · intro size
    have inside : (ofList xs).toList ⊆ xs := fun _ => mem_toList_ofList.1
    have all : xs.length ≤ (ofList xs).toList.length := by
      rw [← size_eq_length]
      exact Nat.le_of_eq size.symm
    have same := (List.Nodup.subperm (nodup_toList _) inside).perm_of_length_le all
    exact same.nodup_iff.1 (nodup_toList _)
  · exact size_ofList

/-- Numbering the list of a numbering gives the numbering back, with its table. -/
theorem ofList_toList (xs : List α) : ofList (ofList xs).toList = ofList xs := by
  induction xs using List.reverseRecOn with
  | nil => rfl
  | append_singleton xs x ih =>
    have last : ofList (xs ++ [x]) = (ofList xs).add x := by simp [ofList]
    rw [last, toList_add]
    split
    case isTrue known => rw [ih, add_of_mem known]
    case isFalse fresh =>
      rw [ofList, List.foldl_append]
      change (ofList (ofList xs).toList).add x = _
      rw [ih]

end RingLock.Numbering
