import RingLock.Proofs.Coloring.Digits
import RingLock.Proofs.Config
import RingLock.Proofs.Enumeration

/-!
# Colorings in order

Every enumeration of colorings is exact. The lists over an alphabet are those of their length, each
once and in lexicographic order, whether they are put together from the front or from the end. The
words of a ring are the numbers in a row. Read as lists they are the lists of two colors, each of
them backwards, so the same colorings are enumerated in another order. A checked configuration
counts them without overflow.
-/
namespace RingLock

open Coloring

namespace Listed

/-- The lists that one more color at the end makes of lists. -/
def grow (colors : ℕ) (lists : List (List UInt8)) : List (List UInt8) :=
  lists.flatMap fun xs => (List.range (colors % 256)).map fun color => xs ++ [UInt8.ofNat color]

/-- What is put to the end does not meet what stands at the front. -/
theorem grow_map_cons (colors : ℕ) (first : UInt8) (lists : List (List UInt8)) :
    grow colors (lists.map (first :: ·)) = (grow colors lists).map (first :: ·) := by
  simp [grow, List.flatMap_map, List.map_flatMap, Function.comp_def]

/-- Lists that are put together from the front can be put together from the end. -/
theorem tuples_succ_eq_grow (colors length : ℕ) :
    tuples colors (length + 1) = grow colors (tuples colors length) := by
  induction length with
  | zero => simp [grow, List.map_eq_flatMap]
  | succ length ih =>
    calc tuples colors (length + 1 + 1)
      _ = (List.range (colors % 256)).flatMap fun color =>
            (grow colors (tuples colors length)).map (UInt8.ofNat color :: ·) := by
          rw [← ih]
          rfl
      _ = (List.range (colors % 256)).flatMap fun color =>
            grow colors ((tuples colors length).map (UInt8.ofNat color :: ·)) := by
          simp only [grow_map_cons]
      _ = grow colors (tuples colors (length + 1)) := List.flatMap_assoc.symm

theorem tuples_eq_iterate (colors length : ℕ) :
    tuples colors length = (grow colors)^[length] [[]] := by
  induction length with
  | zero => rfl
  | succ length ih => rw [Function.iterate_succ_apply', ← ih, tuples_succ_eq_grow]

theorem enumerates_tuples {colors : ℕ} (small : colors < 256) (length : ℕ) :
    Enumerates (tuples colors length) id
      (fun xs => xs.length = length ∧ ∀ x ∈ xs, x.toNat < colors) (colors ^ length) where
  complete _ := mem_tuples small
  once := (increasing_tuples small length).nodup
  increasing := increasing_tuples small length
  length := length_tuples small length

/-- A coloring read from the last hole to the first. -/
def reversed (c : Listed) : Listed := ⟨c.colors.reverse⟩

@[simp] theorem reversed_reversed (c : Listed) : c.reversed.reversed = c := by
  simp [reversed]

theorem reversed_mem_all {holes colors : ℕ} (small : colors < 256) {c : Listed} :
    c.reversed ∈ (all holes colors : List Listed) ↔ c ∈ (all holes colors : List Listed) := by
  simp [mem_all small, reversed]

theorem nodup_all {holes colors : ℕ} (small : colors < 256) :
    (all holes colors : List Listed).Nodup := by
  refine (increasing_tuples small holes).nodup.map fun xs ys same => ?_
  exact congrArg Listed.colors same

/-- Reading every coloring backwards only changes the order of the enumeration. -/
theorem map_reversed_perm {holes colors : ℕ} (small : colors < 256) :
    ((all holes colors : List Listed).map reversed).Perm (all holes colors) := by
  have involutive : Function.Involutive reversed := reversed_reversed
  have once : (all holes colors : List Listed).Nodup := nodup_all small
  refine (List.perm_ext_iff_of_nodup (once.map involutive.injective) once).2 fun c => ?_
  rw [List.mem_map_of_involutive involutive]
  exact reversed_mem_all small

end Listed

namespace Packed

theorem map_toNat_all {holes : ℕ} (h : holes ≤ 32) (colors : ℕ) :
    ((all holes colors : List Packed).map fun c => c.bits.toNat) = List.range (2 ^ holes) := by
  rw [← map_toNat_words h]
  exact List.map_map

/-- The colors of a word are its digits. -/
theorem digits_eq_shades {holes : ℕ} (h : holes ≤ 32) (c : Packed) :
    digits c holes = (shades holes c.bits).map UInt8.toNat := by
  rw [digits, shades, List.map_map]
  refine List.map_congr_left fun i member => ?_
  have inside := List.mem_range.1 member
  simp [Readable.color?, color?_of_lt c (inside.trans_le h)]

theorem toNat_lt_two_of_mem_shades {holes : ℕ} {word : UInt32} {x : UInt8}
    (member : x ∈ shades holes word) : x.toNat < 2 := by
  obtain ⟨i, -, rfl⟩ := List.mem_map.1 member
  rw [toNat_shade]
  exact Nat.mod_lt _ two_pos

/-- What stands at one place in both enumerations are the digits of one number, from the least
significant one in a word and from the most significant one in a list. -/
theorem shades_eq_reverse {holes colors i : ℕ} (h : holes ≤ 32) {c : Packed} {t : Listed}
    (packs : (all holes colors : List Packed)[i]? = some c)
    (lists : (all holes 2 : List Listed)[i]? = some t) :
    shades holes c.bits = t.colors.reverse := by
  obtain ⟨-, number⟩ := (getElem?_all h).1 packs
  obtain ⟨⟨long, proper⟩, number'⟩ := (Listed.getElem?_all (by decide)).1 lists
  rw [digits_eq_shades h] at number
  rw [Listed.digits_eq long, ← List.map_reverse] at number'
  have same := Nat.ofDigits_inj_of_len_eq one_lt_two ?_ ?_ ?_ (number.trans number'.symm)
  · exact List.map_injective_iff.2 (fun a b => UInt8.toNat_inj.1) same
  · simp [long]
  · exact List.forall_mem_map.2 fun x => toNat_lt_two_of_mem_shades
  · simpa using proper

/-- The words of a ring, read hole by hole, are the lists of two colors, read from the last hole to
the first. -/
theorem mapM_toListed?_all {holes : ℕ} (h : holes ≤ 32) (colors : ℕ) :
    (all holes colors : List Packed).mapM (toListed? · holes) =
      some ((all holes 2 : List Listed).map Listed.reversed) := by
  have reads : (all holes colors : List Packed).mapM (toListed? · holes) =
      some ((all holes colors : List Packed).map fun c => ⟨shades holes c.bits⟩) :=
    Traversal.mapM_eq_some_map fun c _ => toListed?_eq h c
  have packs : (all holes colors : List Packed).length = 2 ^ holes :=
    (List.length_map ..).trans (length_words h)
  have lists : (all holes 2 : List Listed).length = 2 ^ holes :=
    (List.length_map ..).trans (Listed.length_tuples (by decide) holes)
  rw [reads, Option.some.injEq]
  refine List.ext_getElem (by rw [List.length_map, List.length_map, packs, lists]) fun i hi hj => ?_
  rw [List.length_map] at hi hj
  rw [List.getElem_map, List.getElem_map]
  exact congrArg Listed.mk (shades_eq_reverse h (List.getElem?_eq_getElem hi)
    (List.getElem?_eq_getElem hj))

end Packed

namespace Config

/-- A configuration counts the colorings of its ring and the recolorings of its hand as they are
enumerated in a representation. -/
structure Counts (c : Config) (C : Type) [Coloring C] : Prop where
  rings : c.ringColorings?.map UInt64.toNat =
    some (all c.holes.toNat c.colors.toNat : List C).length
  hands : c.handRecolorings?.map UInt64.toNat =
    some (recolorings (C := C) c.hand.toNat c.colors.toNat).length

variable {c : Config}

theorem counts_of_lengths {C : Type} [Coloring C] (checked : c.check = .ok ())
    (rings : (all c.holes.toNat c.colors.toNat : List C).length =
      c.colors.toNat ^ c.holes.toNat)
    (hands : (recolorings (C := C) c.hand.toNat c.colors.toNat).length =
      c.colors.toNat ^ c.hand.toNat) : c.Counts C where
  rings := rings ▸ toNat_power?_colors checked (UInt64.le_refl c.holes)
  hands := by
    have fits : c.hand ≤ c.holes := UInt64.le_iff_toNat_le.2 (bounds_of_check checked).2.1
    exact hands ▸ toNat_power?_colors checked fits

theorem counts_listed (checked : c.check = .ok ()) : c.Counts Listed := by
  obtain ⟨-, -, -, -, few⟩ := bounds_of_check checked
  have small : c.colors.toNat < 256 := by omega
  apply counts_of_lengths checked
  case rings => exact (List.length_map ..).trans (Listed.length_tuples small c.holes.toNat)
  case hands => exact Listed.length_tuples small c.hand.toNat

theorem counts_packed (checked : c.check = .ok ()) (two : c.colors = 2) : c.Counts Packed := by
  obtain ⟨-, le, short, -, -⟩ := bounds_of_check checked
  have base : c.colors.toNat = 2 := by
    rw [two]
    rfl
  apply counts_of_lengths checked
  case rings =>
    have bounded : c.holes.toNat ≤ 32 := by omega
    rw [base]
    exact (List.length_map ..).trans (Packed.length_words bounded)
  case hands =>
    have bounded : c.hand.toNat ≤ 32 := by omega
    rw [base]
    exact Packed.length_words bounded

end Config

namespace Coloring

/-- The lists over an alphabet are enumerated exactly, however they are put together. So are the
words of a ring, which are the lists of two colors, each backwards. The counts of a checked
configuration are the lengths of what is enumerated. -/
theorem enumerations_exact :
    (∀ colors length : ℕ, colors < 256 →
      Enumerates (Listed.tuples colors length) id
        (fun xs => xs.length = length ∧ ∀ x ∈ xs, x.toNat < colors) (colors ^ length) ∧
      Listed.tuples colors length = (Listed.grow colors)^[length] [[]]) ∧
    (∀ holes colors : ℕ, holes ≤ 32 →
      ((all holes colors : List Packed).map fun c => c.bits.toNat) = List.range (2 ^ holes) ∧
      ∃ lists, (all holes colors : List Packed).mapM (Packed.toListed? · holes) = some lists ∧
        lists.Perm (all holes 2) ∧ lists = (all holes 2).map Listed.reversed) ∧
    ∀ c : Config, c.check = .ok () → c.Counts Listed ∧ (c.colors = 2 → c.Counts Packed) := by
  refine ⟨?_, ?_, ?_⟩
  · intro colors length small
    exact ⟨Listed.enumerates_tuples small length, Listed.tuples_eq_iterate colors length⟩
  · intro holes colors h
    have reordered : ((all holes 2 : List Listed).map Listed.reversed).Perm (all holes 2) :=
      Listed.map_reversed_perm (by decide)
    exact ⟨Packed.map_toNat_all h colors, _, Packed.mapM_toListed?_all h colors, reordered, rfl⟩
  · intro c checked
    exact ⟨Config.counts_listed checked, Config.counts_packed checked⟩

/-- Lists of three colors, the words of a ring of two holes, and the counts of the largest locks. -/
theorem enumerations_of_two_holes :
    (Listed.tuples 3 2).length = 9 ∧
      (all 2 2 : List Packed).mapM (Packed.toListed? · 2) =
        some [⟨[0, 0]⟩, ⟨[1, 0]⟩, ⟨[0, 1]⟩, ⟨[1, 1]⟩] ∧
      (Config.manyColor 16 16 8).Counts Listed ∧ (Config.twoColor 16 16).Counts Packed := by
  obtain ⟨tuples, words, counts⟩ := enumerations_exact
  obtain ⟨-, lists, run, -, rfl⟩ := words 2 2 (by decide)
  exact ⟨(tuples 3 2 (by decide)).1.length, run, (counts _ rfl).1, (counts _ rfl).2 rfl⟩

end Coloring

end RingLock
