import RingLock.Proofs.Coloring.Listed
import RingLock.Proofs.Coloring.Packed
import RingLock.Proofs.Hand
import RingLock.Proofs.Traversal

/-!
# Enumerations in order

The full hands of a ring and the lists of colors are enumerated in strictly increasing lexicographic
order: one first entry after the other, and for each of them all that may follow. The hands are found
by a search that puts one hole after the other into the hand. It never looks for a hole where none
can be, and each hole that it puts there leads to a hand.
-/
namespace RingLock

/-- A list of exactly the items with some property, each once, in strictly increasing order. -/
structure Enumerates {α β : Type} [LT β] (xs : List α) (key : α → β) (p : α → Prop) (count : ℕ) :
    Prop where
  complete : ∀ x, x ∈ xs ↔ p x
  once : xs.Nodup
  increasing : xs.Pairwise fun x y => key x < key y
  length : xs.length = count

/-- Lists are in order if their first entries are, and what follows each first entry. -/
theorem pairwise_flatMap_cons {ι α : Type} [LT α] {places : List ι} {head : ι → α}
    {tails : ι → List (List α)} (heads : places.Pairwise fun i j => head i < head j)
    (rest : ∀ i ∈ places, (tails i).Pairwise (· < ·)) :
    (places.flatMap fun i => (tails i).map (head i :: ·)).Pairwise (· < ·) := by
  rw [List.pairwise_flatMap]
  constructor
  · intro i member
    refine List.pairwise_map.2 ((rest i member).imp fun less => ?_)
    exact List.cons_lt_cons_iff.2 (Or.inr ⟨rfl, less⟩)
  · refine heads.imp fun less xs hxs ys hys => ?_
    obtain ⟨_, -, rfl⟩ := List.mem_map.1 hxs
    obtain ⟨_, -, rfl⟩ := List.mem_map.1 hys
    exact List.cons_lt_cons_iff.2 (Or.inl less)

/-- Bytes are in the order of the numbers that they are made of. -/
theorem ofNat_lt_ofNat {bound i j : ℕ} (small : bound ≤ 256) (less : i < j) (inside : j < bound) :
    UInt8.ofNat i < UInt8.ofNat j := by
  rw [UInt8.lt_iff_toNat_lt, Hand.toNat_ofNat_of_lt small (less.trans inside),
    Hand.toNat_ofNat_of_lt small inside]
  exact less

namespace Hand

theorem increasing_increasingFrom {holes : ℕ} (small : holes ≤ 256) (size first : ℕ) :
    (increasingFrom holes size first).Pairwise (· < ·) := by
  induction size generalizing first with
  | zero => exact List.pairwise_singleton ..
  | succ size ih =>
    refine pairwise_flatMap_cons ?_ fun hole _ => ih (hole + 1)
    refine (List.pairwise_lt_range' 1).imp_of_mem fun {i j} _ later less => ?_
    have bounds := List.mem_range'_1.1 later
    exact ofNat_lt_ofNat small less (by omega)

theorem increasing_full {holes : ℕ} (small : holes ≤ 256) (size : ℕ) :
    (full holes size).Pairwise fun h k => h.holes < k.holes := by
  unfold full
  split
  · exact List.Pairwise.nil
  · exact List.pairwise_map.2 (increasing_increasingFrom small size 0)

theorem enumerates_full {holes : ℕ} (small : holes ≤ 256) (size : ℕ) :
    Enumerates (full holes size) Hand.holes (Fills · holes size) (holes.choose size) where
  complete _ := mem_full_iff_fills small
  once := by
    refine (increasing_full small size).imp fun {h k} less same => ?_
    exact List.lt_irrefl _ (same ▸ less)
  increasing := increasing_full small size
  length := length_full holes size

/-- The search for full hands that begin with the chosen holes and go on with `first` or a later
hole. The last hole that leaves room for the missing ones is computed by subtraction, and holes are
bytes. There is no result where a subtraction would go below zero, where a hole would not be a byte,
and where a chosen hole would lead to no hand. -/
def search? (holes size first : ℕ) (chosen : List UInt8) : Option (List Hand) :=
  if chosen.length = size then some [⟨chosen⟩]
  else if size < chosen.length then none
  else
    let missing := size - chosen.length
    if holes < missing then none
    else ((List.range' first (holes - missing + 1 - first)).mapM fun hole =>
      if hole < 256 then
        (search? holes size (hole + 1) (chosen ++ [UInt8.ofNat hole])).filter (!·.isEmpty)
      else none).map List.flatten
termination_by size - chosen.length
decreasing_by rw [List.length_append, List.length_singleton]; omega

/-- The search from the first hole on. A hand that is larger than the ring is not searched for. -/
def find? (holes size : ℕ) : Option (List Hand) :=
  if holes < size then some [] else search? holes size 0 []

/-- There is a way to fill a hand where enough holes are left. -/
theorem increasingFrom_ne_nil {holes size first : ℕ} (room : first + size ≤ holes) :
    increasingFrom holes size first ≠ [] := by
  rw [← List.length_pos_iff, length_increasingFrom]
  exact Nat.choose_pos (by omega)

/-- Where enough holes are left, the search finds every way to go on. -/
theorem search?_eq_some {holes : ℕ} (small : holes ≤ 256) (chosen : List UInt8)
    {missing first : ℕ} (room : first + missing ≤ holes) :
    search? holes (chosen.length + missing) first chosen =
      some ((increasingFrom holes missing first).map fun rest => ⟨chosen ++ rest⟩) := by
  induction missing generalizing first chosen with
  | zero => simp [search?, increasingFrom]
  | succ missing ih =>
    have each : ∀ hole ∈ List.range' first (holes - (missing + 1) + 1 - first),
        (if hole < 256 then
          (search? holes (chosen.length + (missing + 1)) (hole + 1)
            (chosen ++ [UInt8.ofNat hole])).filter (!·.isEmpty)
        else none) = some ((increasingFrom holes missing (hole + 1)).map fun rest =>
          (⟨chosen ++ UInt8.ofNat hole :: rest⟩ : Hand)) := by
      intro hole member
      have bounds := List.mem_range'_1.1 member
      have room' : hole + 1 + missing ≤ holes := by omega
      have found := ih (chosen ++ [UInt8.ofNat hole]) room'
      rw [List.length_append, List.length_singleton, Nat.add_assoc, Nat.add_comm 1] at found
      rw [if_pos (by omega), found, Option.filter_some, if_pos]
      · simp
      · simpa using increasingFrom_ne_nil room'
    have span : holes - (missing + 1) + 1 - first = holes - missing - first := by omega
    rw [search?, if_neg (by omega), if_neg (by omega), Nat.add_sub_cancel_left,
      if_neg (by omega), Traversal.mapM_eq_some_map each, span]
    simp [increasingFrom, List.flatMap_def, Function.comp_def]

theorem find?_eq_some {holes : ℕ} (small : holes ≤ 256) (size : ℕ) :
    find? holes size = some (full holes size) := by
  unfold find? full
  split
  case isTrue => rfl
  case isFalse fits =>
    have room : 0 + size ≤ holes := by omega
    simpa using search?_eq_some small [] room

/-- The full hands of a ring are enumerated without a gap and in order, and the search for them
fails nowhere. -/
theorem full_hands_exact (holes size : ℕ) (small : holes ≤ 256) :
    Enumerates (full holes size) Hand.holes (Fills · holes size) (holes.choose size) ∧
      find? holes size = some (full holes size) :=
  ⟨enumerates_full small size, find?_eq_some small size⟩

/-- The hands of two holes on a ring of four. -/
theorem full_hands_of_four_holes :
    Enumerates (full 4 2) Hand.holes (Fills · 4 2) 6 ∧ find? 4 2 =
      some [⟨[0, 1]⟩, ⟨[0, 2]⟩, ⟨[0, 3]⟩, ⟨[1, 2]⟩, ⟨[1, 3]⟩, ⟨[2, 3]⟩] := by
  obtain ⟨enumerates, found⟩ := full_hands_exact 4 2 (by decide)
  exact ⟨enumerates, found⟩

end Hand

namespace Listed

theorem increasing_tuples {colors : ℕ} (small : colors < 256) (length : ℕ) :
    (tuples colors length).Pairwise (· < ·) := by
  induction length with
  | zero => exact List.pairwise_singleton ..
  | succ length ih =>
    rw [tuples_succ, Nat.mod_eq_of_lt small]
    refine pairwise_flatMap_cons ?_ fun _ _ => ih
    refine List.pairwise_lt_range.imp_of_mem fun {i j} _ later less => ?_
    exact ofNat_lt_ofNat small.le less (List.mem_range.1 later)

end Listed

namespace Packed

/-- The words of a ring are the numbers from zero on. -/
theorem map_toNat_words {holes : ℕ} (h : holes ≤ 32) :
    (words holes).map UInt32.toNat = List.range (2 ^ holes) := by
  have one_le : 1 ≤ 2 ^ holes := Nat.one_le_two_pow
  have power : 2 ^ holes ≤ 2 ^ 32 := Nat.pow_le_pow_right (by decide) h
  rw [words, toNat_mask h, Nat.sub_add_cancel one_le, List.map_map]
  refine (List.map_congr_left fun n member => ?_).trans (List.map_id _)
  exact UInt32.toNat_ofNat_of_lt' ((List.mem_range.1 member).trans_le power)

end Packed

end RingLock
