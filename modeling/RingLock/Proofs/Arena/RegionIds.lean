import Mathlib.Data.Set.Card
import RingLock.Arena.Region

/-!
# Regions as sets

The members of a region as a set of ids. A region whose stored number is right is determined by its
bound and its set. Whatever is made from a predicate has the right number.
-/
namespace RingLock.Region

def ids (r : Region) : Set LocId := {id | r.contains id}

@[simp] theorem mem_ids {r : Region} {id : LocId} : id ∈ r.ids ↔ r.contains id := Iff.rfl

/-- The stored number is the number of members. -/
def Counted (r : Region) : Prop := r.size = r.ids.ncard

theorem index_lt_bound {r : Region} {id : LocId} (h : r.contains id) : id.index < r.bound := by
  by_contra outside
  have absent : r.members[id.index]? = none := Array.getElem?_eq_none (Nat.le_of_not_lt outside)
  simp [contains, absent] at h

theorem contains_ofNat {r : Region} {i : ℕ} (hi : i < UInt32.size) :
    r.contains (.ofNat i) = r.members[i]?.getD false := by
  rw [contains, LocId.index_ofNat hi]

theorem count_members (r : Region) : r.members.count true = r.toList.length := by
  have flags : r.members.toList = (List.range r.bound).map fun i => r.members[i]?.getD false := by
    apply List.ext_getElem
    · simp [bound]
    · intro i hi hj
      have inside : i < r.members.size := by simpa using hi
      simp [inside]
  rw [← Array.count_toList, flags, toList, List.length_map, List.count, List.countP_map,
    List.countP_eq_length_filter]
  congr 2
  funext i
  simp

theorem nodup_toList {r : Region} (h : r.bound ≤ UInt32.size) : r.toList.Nodup := by
  apply List.Nodup.map_on _ (List.nodup_range.filter _)
  intro i hi j hj same
  have hi' : i < UInt32.size := by simp at hi; omega
  have hj' : j < UInt32.size := by simp at hj; omega
  have := congrArg LocId.index same
  rwa [LocId.index_ofNat hi', LocId.index_ofNat hj'] at this

theorem ids_eq_toFinset {r : Region} (h : r.bound ≤ UInt32.size) : r.ids = ↑r.toList.toFinset := by
  ext id
  simp [mem_toList h]

theorem finite_ids {r : Region} (h : r.bound ≤ UInt32.size) : r.ids.Finite := by
  rw [ids_eq_toFinset h]
  exact Finset.finite_toSet _

theorem ncard_ids {r : Region} (h : r.bound ≤ UInt32.size) : r.ids.ncard = r.toList.length := by
  rw [ids_eq_toFinset h, Set.ncard_coe_finset, List.toFinset_card_of_nodup (nodup_toList h)]

theorem ncard_ids_le {r : Region} (h : r.bound ≤ UInt32.size) : r.ids.ncard ≤ r.bound := by
  rw [ncard_ids h, toList, List.length_map]
  exact (List.length_filter_le ..).trans_eq List.length_range

theorem counted_ofFn (bound : ℕ) (p : LocId → Bool) : (ofFn bound p).Counted := by
  have small : (ofFn bound p).bound ≤ UInt32.size := by
    rw [bound_ofFn]
    exact (Nat.mod_lt _ (by decide)).le
  have number : (ofFn bound p).toList.length < UInt64.size := by
    have := ncard_ids_le small
    rw [ncard_ids small] at this
    exact (this.trans small).trans_lt (by decide)
  rw [Counted, ncard_ids small, ← count_members] at *
  exact Nat.mod_eq_of_lt number

theorem isEmpty_iff_size {r : Region} : r.isEmpty ↔ r.size = 0 := by
  rw [isEmpty, beq_iff_eq, size, ← UInt64.toNat_inj]
  rfl

/-- A region with the right number is empty if and only if it has no members. -/
theorem Counted.isEmpty_iff {r : Region} (h : r.Counted) (small : r.bound ≤ UInt32.size) :
    r.isEmpty ↔ ∀ id, ¬r.contains id := by
  rw [isEmpty_iff_size, h, Set.ncard_eq_zero (finite_ids small), Set.eq_empty_iff_forall_notMem]
  rfl

/-- Bound, members and a right number determine a region. -/
theorem eq_of_ids_eq {r s : Region} (bounds : r.bound = s.bound) (small : r.bound ≤ UInt32.size)
    (same : r.ids = s.ids) (hr : r.Counted) (hs : s.Counted) : r = s := by
  have flags : r.members = s.members := by
    apply Array.ext (by simpa [bound] using bounds)
    intro i hi hj
    have inside : i < UInt32.size := hi.trans_le small
    have member : LocId.ofNat i ∈ r.ids ↔ LocId.ofNat i ∈ s.ids := by rw [same]
    rw [Bool.eq_iff_iff]
    simpa [contains_ofNat inside, hi, hj] using member
  have numbers : r.count = s.count := by
    rw [Counted, size] at hr hs
    exact UInt64.toNat_inj.1 (by rw [hr, hs, same])
  cases r
  cases s
  simp_all

end RingLock.Region
