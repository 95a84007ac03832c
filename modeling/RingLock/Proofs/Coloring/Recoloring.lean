import Mathlib.Data.Set.Function
import RingLock.Proofs.Enumeration

/-!
# The recolorings of a hand

A hand that holds no hole twice gets each color of a recoloring into a hole of its own. So different
recolorings lead to different colorings, and together they lead to all colorings that differ in the
hand alone.
-/
namespace RingLock

/-- A hand without repetitions has no more holes than the ring. -/
theorem Hand.Inside.size_le {hand : Hand} {holes : ℕ} (inside : hand.Inside holes)
    (distinct : hand.holes.Nodup) : hand.size ≤ holes := by
  have fills := Hand.fills_mergeSort distinct inside
  have short := Hand.length_le_of_increasing fills.increasing fun x hx =>
    ⟨Nat.zero_le _, fills.inside x hx⟩
  rwa [fills.length, Nat.sub_zero] at short

namespace Coloring

open Readable

variable {C : Type} [Coloring C] [Readable C] {holes colors : ℕ} {c : C} {hand : Hand}

/-- The proper colorings that show what another one shows, save for the holes of a hand. -/
def Variants (proper : Set C) (c : C) (hand : Hand) (holes : ℕ) : Set C :=
  {d ∈ proper | ∀ i < holes, (∀ x ∈ hand.holes, x.toNat ≠ i) → color? d i = color? c i}

/-- The recolorings of a hand are all different, none of them fails, and each of the given
colorings is what exactly one of them leads to. -/
structure Recolors (c : C) (hand : Hand) (colors : ℕ) (variants : Set C) : Prop where
  distinct : (recolorings (C := C) hand.size colors).Nodup
  bijective : Set.BijOn (recolor? c hand) {r | r ∈ recolorings (C := C) hand.size colors}
    (some '' variants)

/-- Recoloring is bijective in a lawful representation where a recoloring is told by its colors and
keeps the holes outside the hand. -/
theorem Lawful.bijOn_recolor? (lawful : Lawful C holes colors)
    (hc : c ∈ (all holes colors : List C)) (distinct : hand.holes.Nodup)
    (inside : hand.Inside holes)
    (told : ∀ r ∈ recolorings (C := C) hand.size colors,
      ∀ s ∈ recolorings (C := C) hand.size colors,
        (∀ place < hand.size, entry r place = entry s place) → r = s)
    (keeps : ∀ r ∈ recolorings (C := C) hand.size colors, ∀ d, recolor? c hand r = some d →
      ∀ i, (∀ x ∈ hand.holes, x.toNat ≠ i) → color? d i = color? c i) :
    Set.BijOn (recolor? c hand) {r | r ∈ recolorings (C := C) hand.size colors}
      (some '' Variants {d | d ∈ (all holes colors : List C)} c hand holes) := by
  have size_le := inside.size_le distinct
  -- The only place of a hole is the one whose color it gets.
  have painted (r) (hr : r ∈ recolorings (C := C) hand.size colors) :
      ∃ d ∈ (all holes colors : List C), recolor? c hand r = some d ∧
        ∀ place, ∀ x, hand.holes[place]? = some x → color? d x.toNat = some (entry r place) := by
    obtain ⟨d, hd, run, recolored⟩ := lawful.recolor c hc hand _ inside le_rfl size_le r hr
    refine ⟨d, hd, run, fun place x held => ?_⟩
    obtain ⟨place', held', shown⟩ := recolored.painted x (List.mem_of_getElem? held)
    have bounded := (List.getElem?_eq_some_iff.1 held).1
    rwa [(List.getElem?_inj bounded distinct).1 (held.trans held'.symm)]
  refine ⟨fun r hr => ?_, fun r hr s hs same => ?_, ?_⟩
  · obtain ⟨d, hd, run, -⟩ := painted r hr
    exact ⟨d, ⟨hd, fun i _ free => keeps r hr d run i free⟩, run.symm⟩
  · obtain ⟨d, -, run, shown⟩ := painted r hr
    obtain ⟨e, -, run', shown'⟩ := painted s hs
    obtain rfl := Option.some.inj (run.symm.trans (same.trans run'))
    refine told r hr s hs fun place bounded => ?_
    have held := List.getElem?_eq_getElem bounded
    exact Option.some.inj ((shown place _ held).symm.trans (shown' place _ held))
  · rintro _ ⟨d, ⟨hd, agree⟩, rfl⟩
    exact lawful.reach_outside hc hd inside le_rfl size_le fun i hi free =>
      ⟨agree i hi free, fun e r hr run => keeps r hr e run i free⟩

end Coloring

namespace Listed

open Coloring

theorem recolors {holes colors : ℕ} (small : colors < 256) {c : Listed}
    (proper : c.colors.length = holes ∧ ∀ x ∈ c.colors, x.toNat < colors) {hand : Hand}
    (distinct : hand.holes.Nodup) (inside : hand.Inside holes) :
    Recolors c hand colors
      (Variants {d | d.colors.length = holes ∧ ∀ x ∈ d.colors, x.toNat < colors} c hand holes) := by
  have hc := (mem_all small).2 proper
  have same : {d : Listed | d ∈ (all holes colors : List Listed)} =
      {d | d.colors.length = holes ∧ ∀ x ∈ d.colors, x.toNat < colors} :=
    Set.ext fun d => mem_all small
  refine ⟨(increasing_tuples small _).nodup, ?_⟩
  rw [← same]
  refine (lawful small).bijOn_recolor? hc distinct inside ?_ ?_
  · intro r hr s hs agree
    have long := length_of_mem_tuples hr
    have long' := length_of_mem_tuples hs
    refine List.ext_getElem (long.trans long'.symm) fun place bounded bounded' => ?_
    simpa [entry_eq, bounded, bounded'] using agree place (long ▸ bounded)
  · intro r hr d run
    obtain ⟨e, run', kept, -⟩ := recolor?_eq_some (c := c) (proper.1.symm ▸ inside)
      (length_of_mem_tuples hr).ge
    obtain rfl := Option.some.inj (run.symm.trans run')
    exact kept

end Listed

namespace Packed

open Coloring

theorem recolors {holes : ℕ} (h : holes ≤ 32) {c : Packed} (proper : c.bits.toNat < 2 ^ holes)
    {hand : Hand} (distinct : hand.holes.Nodup) (inside : hand.Inside holes) :
    Recolors c hand 2 (Variants {d | d.bits.toNat < 2 ^ holes} c hand holes) := by
  have hc : c ∈ (all holes 2 : List Packed) := mem_all.2 ((mem_words h).2 proper)
  have short : hand.size ≤ 32 := (inside.size_le distinct).trans h
  have same : {d : Packed | d ∈ (all holes 2 : List Packed)} = {d | d.bits.toNat < 2 ^ holes} :=
    Set.ext fun d => mem_all.trans (mem_words h)
  have once : ((words hand.size).map UInt32.toNat).Nodup :=
    map_toNat_words short ▸ List.nodup_range
  refine ⟨once.of_map, ?_⟩
  rw [← same]
  refine (lawful h).bijOn_recolor? hc distinct inside ?_ ?_
  · intro r hr s hs agree
    exact eq_of_bit_eq_inside short hr hs fun place bounded => shade_inj.1 (agree place bounded)
  · intro r _ d run
    obtain ⟨e, run', kept, -⟩ := recolor?_eq_some c r (fun x hx => (inside x hx).trans_le h) short
    obtain rfl := Option.some.inj (run.symm.trans run')
    exact kept

end Packed

namespace Coloring

/-- For every coloring and every hand without repetitions inside the ring, in whatever order, the
recolorings of the hand correspond to the colorings that differ in the hand alone. -/
theorem recoloring_bijective :
    (∀ (holes colors : ℕ) (c : Listed) (hand : Hand), colors < 256 →
      (c.colors.length = holes ∧ ∀ x ∈ c.colors, x.toNat < colors) → hand.holes.Nodup →
      hand.Inside holes → Recolors c hand colors
        (Variants {d | d.colors.length = holes ∧ ∀ x ∈ d.colors, x.toNat < colors} c hand holes)) ∧
    ∀ (holes : ℕ) (c : Packed) (hand : Hand), holes ≤ 32 → c.bits.toNat < 2 ^ holes →
      hand.holes.Nodup → hand.Inside holes →
      Recolors c hand 2 (Variants {d | d.bits.toNat < 2 ^ holes} c hand holes) := by
  refine ⟨?_, ?_⟩
  · intro holes colors c hand small proper distinct inside
    exact Listed.recolors small proper distinct inside
  · intro holes c hand h proper distinct inside
    exact Packed.recolors h proper distinct inside

/-- Three holes of which the last and the first are in the hand, in this order. -/
theorem recoloring_of_three_holes :
    Recolors (⟨[0, 1, 2]⟩ : Listed) ⟨[2, 0]⟩ 3
      (Variants {d | d.colors.length = 3 ∧ ∀ x ∈ d.colors, x.toNat < 3} ⟨[0, 1, 2]⟩ ⟨[2, 0]⟩ 3) ∧
    ∃ r ∈ Packed.words 2, Packed.recolor? ⟨0b101⟩ ⟨[2, 0]⟩ r = some ⟨0b001⟩ := by
  obtain ⟨lists, words⟩ := recoloring_bijective
  refine ⟨lists 3 3 _ _ (by decide) ⟨rfl, by simp⟩ (by decide) (by decide), ?_⟩
  have recolors := words 3 ⟨0b101⟩ ⟨[2, 0]⟩ (by decide) (by decide) (by decide) (by decide)
  refine recolors.bijective.surjOn ⟨⟨0b001⟩, ⟨show _ < 2 ^ 3 by decide, fun i hi free => ?_⟩, rfl⟩
  have last : 2 ≠ i := free 2 (by simp)
  have first : 0 ≠ i := free 0 (by simp)
  obtain rfl : i = 1 := by omega
  rfl

end Coloring

end RingLock
