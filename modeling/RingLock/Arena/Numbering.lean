import Std.Data.HashMap

/-!
# Numberings

A list of distinct items together with the place of each. The places are looked up in a table that
grows with the list. Main statement: an item has place `i` exactly when it stands at place `i`, so
no item stands at two places.
-/
namespace RingLock

structure Numbering (α : Type) [DecidableEq α] [Hashable α] where
  items : Array α
  places : Std.HashMap α Nat
  /-- The table and the list agree. -/
  agree : ∀ (x : α) (i : Nat), places[x]? = some i ↔ items[i]? = some x

namespace Numbering

variable {α : Type} [DecidableEq α] [Hashable α]

def empty : Numbering α where
  items := #[]
  places := ∅
  agree := by simp

def size (n : Numbering α) : Nat := n.items.size

/-- The place of an item. -/
def find? (n : Numbering α) (x : α) : Option Nat := n.places[x]?

/-- The item at a place. -/
def get? (n : Numbering α) (i : Nat) : Option α := n.items[i]?

def toList (n : Numbering α) : List α := n.items.toList

/-- Appends an item, unless it has a place already. -/
def add (n : Numbering α) (x : α) : Numbering α :=
  if fresh : x ∈ n.places then n
  else
    { items := n.items.push x
      places := n.places.insert x n.items.size
      agree := by
        intro y i
        have absent : ∀ j : Nat, n.items[j]? ≠ some x := by
          intro j found
          have := (n.agree x j).2 found
          exact fresh (Std.HashMap.mem_iff_isSome_getElem?.2 (by simp [this]))
        rw [Std.HashMap.getElem?_insert, Array.getElem?_push]
        by_cases same : x = y
        · subst same
          by_cases last : i = n.items.size
          · simp [last]
          · simp [last, absent i, Ne.symm last]
        · by_cases last : i = n.items.size
          · simp [same, last, n.agree]
          · simp [same, last, n.agree] }

/-- Numbers the items of a list in the order of their first occurrence. -/
def ofList (xs : List α) : Numbering α := xs.foldl add empty

@[ext] theorem ext {m n : Numbering α} (items : m.items = n.items) (places : m.places = n.places) :
    m = n := by
  cases m; cases n; simp_all

theorem find?_eq_some_iff (n : Numbering α) (x : α) (i : Nat) :
    n.find? x = some i ↔ n.get? i = some x := n.agree x i

theorem find?_isSome_iff (n : Numbering α) (x : α) : (n.find? x).isSome ↔ x ∈ n.toList := by
  simp only [Option.isSome_iff_exists, find?_eq_some_iff, get?, toList, Array.mem_toList_iff,
    Array.mem_iff_getElem?]

theorem lt_size_of_find? {n : Numbering α} {x : α} {i : Nat} (h : n.find? x = some i) :
    i < n.size := (Array.getElem?_eq_some_iff.1 ((n.agree x i).1 h)).1

/-- Distinct places hold distinct items. -/
theorem get?_inj {n : Numbering α} {i j : Nat} {x : α} (hi : n.get? i = some x)
    (hj : n.get? j = some x) : i = j := by
  rw [← find?_eq_some_iff] at hi hj
  exact Option.some.inj (hi.symm.trans hj)

theorem add_of_mem {n : Numbering α} {x : α} (h : x ∈ n.toList) : n.add x = n := by
  have known : x ∈ n.places := by
    rw [Std.HashMap.mem_iff_isSome_getElem?]
    exact (n.find?_isSome_iff x).2 h
  simp [add, known]

theorem toList_add (n : Numbering α) (x : α) :
    (n.add x).toList = if x ∈ n.toList then n.toList else n.toList ++ [x] := by
  split
  case isTrue known => rw [add_of_mem known]
  case isFalse fresh =>
    have absent : x ∉ n.places := by
      rw [Std.HashMap.mem_iff_isSome_getElem?]
      exact fun found => fresh ((n.find?_isSome_iff x).1 found)
    simp [add, absent, toList]

theorem mem_toList_add {n : Numbering α} {x y : α} :
    y ∈ (n.add x).toList ↔ y ∈ n.toList ∨ y = x := by
  rw [toList_add]
  split
  · constructor
    · exact Or.inl
    · rintro (h | rfl) <;> assumption
  · simp

theorem mem_toList_foldl_add {xs : List α} {n : Numbering α} {y : α} :
    y ∈ (xs.foldl add n).toList ↔ y ∈ n.toList ∨ y ∈ xs := by
  induction xs generalizing n with
  | nil => simp
  | cons x xs ih => simp [ih, mem_toList_add, or_assoc]

/-- Numbering a list neither loses nor invents an item. -/
@[simp] theorem mem_toList_ofList {xs : List α} {y : α} : y ∈ (ofList xs).toList ↔ y ∈ xs := by
  rw [ofList, mem_toList_foldl_add]
  simp [toList, empty]

end Numbering

end RingLock
