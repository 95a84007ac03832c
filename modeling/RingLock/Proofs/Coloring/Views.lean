import RingLock.Proofs.Coloring.Packed
import RingLock.Proofs.Ring

/-!
# The three views of a ring

A word, a list and a live ring show the same colors, and every move of one is the move of the
others: a turn by any amount, a recoloring of any hand inside the ring, in which the last write of a
hole counts, and the test for a single color.
-/
namespace RingLock

namespace Packed

/-- Every move of a packed coloring is the move of the list. -/
structure ViewedAs (holes : ℕ) (c : Packed) (t : Listed) : Prop where
  rotate : ∀ amount, ∃ d u, c.rotate? amount holes = some d ∧ d.toListed? holes = some u ∧
    t.rotate? amount holes = some u
  recolor : ∀ (hand : Hand) (word : UInt32), hand.size ≤ 32 →
    (∀ x ∈ hand.holes, x.toNat < holes) → ∃ d u, c.recolor? hand word = some d ∧
      d.toListed? holes = some u ∧ t.recolor? hand (shades hand.size word) = some u
  isUniform : c.isUniform holes = Coloring.isUniform t holes

theorem shades_eq {holes : ℕ} {word : UInt32} {colors : List UInt8}
    (long : colors.length = holes) (same : ∀ i < holes, colors[i]? = some (shade (bit word i))) :
    colors = shades holes word := by
  refine List.ext_getElem? fun i => ?_
  by_cases inside : i < holes
  · rw [same i inside, shades_getElem? inside]
  · rw [List.getElem?_eq_none (by omega), List.getElem?_eq_none (by rw [length_shades]; omega)]

/-- The turn of a word is the turn of its colors. -/
theorem shades_rotate? {holes : ℕ} (h : holes ≤ 32) {c : Packed} (hc : c.bits ∈ words holes)
    (amount : ℕ) : ∃ d, c.rotate? amount holes = some d ∧ d.bits ∈ words holes ∧
      Listed.rotate? ⟨shades holes c.bits⟩ amount holes = some ⟨shades holes d.bits⟩ := by
  by_cases empty : holes = 0
  · subst empty
    exact ⟨c, rotate?_zero_holes c amount, hc, Listed.rotate?_zero_holes _ amount⟩
  have bounded : amount % holes < holes := Nat.mod_lt amount (Nat.pos_of_ne_zero empty)
  obtain ⟨d, turned, member, carried⟩ := rotate?_eq_some h hc bounded
  rw [rotate?_mod] at turned
  have same : Listed.carry holes amount (shades holes c.bits) = shades holes d.bits := by
    apply shades_eq (by rw [Listed.length_carry, length_shades])
    intro i hi
    rw [Listed.getElem?_carry (length_shades ..) amount hi, carried i hi,
      shades_getElem? (Nat.mod_lt _ (by omega))]
  have lists := Listed.rotate?_eq_carry (c := ⟨shades holes c.bits⟩) (length_shades ..) amount
  exact ⟨d, turned, member, same ▸ lists⟩

/-- One write into a word is the write of the shade into its colors. -/
theorem shades_write? {holes : ℕ} (h : holes ≤ 32) (bits word : UInt32) {hole place : ℕ}
    (inside : hole < holes) (hp : place < 32) :
    ∃ written, write? bits word hole place = some written ∧
      Listed.write? (shades holes bits) hole (shade (bit word place)) =
        some (shades holes written) := by
  obtain ⟨written, run, bits_of⟩ := write?_eq_some bits word (inside.trans_le h) hp
  refine ⟨written, run, ?_⟩
  rw [Listed.write?, if_pos (by rwa [length_shades]), Option.some.injEq]
  apply shades_eq (by rw [List.length_set, length_shades])
  intro i hi
  rw [bits_of i (by omega), List.getElem?_set, length_shades, shades_getElem? hi]
  by_cases here : i = hole
  · simp [here, inside]
  · simp [here, Ne.symm here]

/-- The recoloring of a word is the recoloring of its colors by the bits of the other word. -/
theorem shades_recolor? {holes : ℕ} (h : holes ≤ 32) (c : Packed) {hand : Hand}
    (short : hand.size ≤ 32) (inside : ∀ x ∈ hand.holes, x.toNat < holes) (word : UInt32) :
    ∃ d, c.recolor? hand word = some d ∧
      Listed.recolor? ⟨shades holes c.bits⟩ hand (shades hand.size word) =
        some ⟨shades holes d.bits⟩ := by
  -- Both write the holes of the hand in their order, so a hole may well stand there twice.
  have cells : hand.holes.zip (shades hand.size word) =
      hand.holes.zipIdx.map (Prod.map id fun place => shade (bit word place)) := by
    rw [shades, List.zip_map_right, List.zipIdx_eq_zip_range', List.range_eq_range', Hand.size]
  have step (bits : UInt32) (colors : List UInt8) (same : colors = shades holes bits)
      (cell : UInt8 × ℕ) (member : cell ∈ hand.holes.zipIdx) : ∃ written repainted,
        write? bits word cell.1.toNat cell.2 = some written ∧
        Listed.write? colors cell.1.toNat (shade (bit word cell.2)) = some repainted ∧
        repainted = shades holes written := by
    have held := List.mem_zipIdx_iff_getElem?.1 member
    have place_lt : cell.2 < 32 := (List.getElem?_eq_some_iff.1 held).1.trans_le short
    obtain ⟨written, run, run'⟩ :=
      shades_write? h bits word (inside _ (List.mem_of_getElem? held)) place_lt
    exact ⟨written, _, run, same ▸ run', rfl⟩
  obtain ⟨bits, colors, packs, lists, rfl⟩ := Traversal.foldlM_related step (s := c.bits) rfl
  refine ⟨⟨bits⟩, by rw [recolor?, packs]; rfl, ?_⟩
  rw [Listed.recolor?, cells, List.foldlM_map]
  exact congrArg (Option.map Listed.mk) lists

theorem isUniform_eq_neighboursAgree {holes : ℕ} (h : holes ≤ 32) {c : Packed}
    (hc : c.bits ∈ words holes) : c.isUniform holes = neighboursAgree (shades holes c.bits) := by
  rw [Bool.eq_iff_iff, isUniform_iff h hc, Listed.neighboursAgree_iff, length_shades]
  refine forall₂_congr fun i hi => forall₂_congr fun j hj => ?_
  rw [shades_getElem? hi, shades_getElem? hj, Option.some.injEq, shade_inj]

theorem viewedAs_shades {holes : ℕ} (h : holes ≤ 32) {c : Packed} (hc : c.bits ∈ words holes) :
    ViewedAs holes c ⟨shades holes c.bits⟩ where
  rotate amount := by
    obtain ⟨d, packs, -, lists⟩ := shades_rotate? h hc amount
    exact ⟨d, _, packs, toListed?_eq h d, lists⟩
  recolor hand word short inside := by
    obtain ⟨d, packs, lists⟩ := shades_recolor? h c short inside word
    exact ⟨d, _, packs, toListed?_eq h d, lists⟩
  isUniform := isUniform_eq_neighboursAgree h hc

end Packed

namespace Ring

/-- Every move of a live ring is the move of its list. -/
structure ViewedAs (r : Ring) (t : Listed) : Prop where
  rotate : ∀ amount, t.rotate? amount r.size = some (r.rotate amount).toListed
  recolor : ∀ (hand : Hand) (colors : List UInt8), (∀ x ∈ hand.holes, x.toNat < r.size) →
    (∀ c ∈ colors, c < r.palette) → ∃ q, r.recolor? hand colors = some q ∧
      t.recolor? hand colors = some q.toListed
  isWon : ∀ holes, r.isWon = Coloring.isUniform t holes

/-- A color of the palette stays as it is. -/
theorem mod_palette {palette color : UInt8} (inside : color < palette) :
    palette ≠ 0 ∧ color % palette = color := by
  have less := UInt8.lt_iff_toNat_lt.1 inside
  constructor
  · rintro rfl
    exact Nat.not_lt_zero _ less
  · rw [← UInt8.toNat_inj, UInt8.toNat_mod, Nat.mod_eq_of_lt less]

/-- A recoloring of a ring is the recoloring of its coloring with the colors reduced to the
palette. -/
theorem toListed_recolor?_reduced (r : Ring) (nonempty : r.palette ≠ 0) {hand : Hand}
    (inside : ∀ x ∈ hand.holes, x.toNat < r.size) (colors : List UInt8) :
    ∃ q, r.recolor? hand colors = some q ∧
      r.toListed.recolor? hand (colors.map (· % r.palette)) = some q.toListed := by
  have step (q : Ring) (shown : List UInt8)
      (same : q.palette = r.palette ∧ q.size = r.size ∧ q.colors = shown)
      (cell : UInt8 × UInt8) (member : cell ∈ hand.holes.zip colors) : ∃ next written,
        q.write? cell.1.toNat cell.2 = some next ∧
        Listed.write? shown cell.1.toNat (cell.2 % r.palette) = some written ∧
        next.palette = r.palette ∧ next.size = r.size ∧ next.colors = written := by
    obtain ⟨palette, size, rfl⟩ := same
    have there : cell.1.toNat < q.size := size ▸ inside _ (List.of_mem_zip member).1
    refine ⟨{ q with colors := q.colors.set cell.1.toNat (cell.2 % r.palette) }, _, ?_,
      if_pos there, palette, List.length_set.trans size, rfl⟩
    rw [write?, if_pos there, palette, reduce?, if_neg nonempty]
    rfl
  obtain ⟨q, shown, run, lists, -, -, rfl⟩ :=
    Traversal.foldlM_related step (s := r) ⟨rfl, rfl, rfl⟩
  refine ⟨q, run, ?_⟩
  rw [Listed.recolor?, List.zip_map_right, List.foldlM_map]
  exact congrArg (Option.map Listed.mk) lists

/-- A recoloring of a ring with colors of its palette is the recoloring of its coloring. -/
theorem toListed_recolor? (r : Ring) {hand : Hand} {colors : List UInt8}
    (inside : ∀ x ∈ hand.holes, x.toNat < r.size) (proper : ∀ c ∈ colors, c < r.palette) :
    ∃ q, r.recolor? hand colors = some q ∧
      r.toListed.recolor? hand colors = some q.toListed := by
  cases colors with
  | nil => exact ⟨r, by simp [recolor?], by simp [Listed.recolor?, toListed]⟩
  | cons color colors =>
    have nonempty := (mod_palette (proper color List.mem_cons_self)).1
    have reduced : (color :: colors).map (· % r.palette) = color :: colors :=
      (List.map_congr_left fun c member => (mod_palette (proper c member)).2).trans (List.map_id _)
    have both := toListed_recolor?_reduced r nonempty inside (color :: colors)
    rwa [reduced] at both

theorem viewedAs_toListed (r : Ring) : r.ViewedAs r.toListed where
  rotate := toListed_rotate r
  recolor _ _ := toListed_recolor? r
  isWon _ := rfl

end Ring

/-- Every coloring that fits into a word has a list, and every live ring has one, whose turns,
recolorings and test for a single color are those of the word and of the ring. -/
theorem Coloring.views_agree :
    (∀ (holes : ℕ) (c : Packed), holes ≤ 32 → c.bits.toNat < 2 ^ holes →
      ∃ t, c.toListed? holes = some t ∧ Packed.ViewedAs holes c t) ∧
    ∀ r : Ring, r.ViewedAs r.toListed := by
  refine ⟨fun holes c h bounded => ?_, Ring.viewedAs_toListed⟩
  exact ⟨_, Packed.toListed?_eq h c, Packed.viewedAs_shades h ((Packed.mem_words h).2 bounded)⟩

/-- Three holes and a hand that holds the last of them twice: its second color counts, in a word and
in a live ring of three colors. -/
theorem Coloring.views_of_three_holes :
    (∃ t d u, Packed.toListed? ⟨0b010⟩ 3 = some t ∧
      Packed.recolor? ⟨0b010⟩ ⟨[2, 0, 2]⟩ 0b011 = some d ∧ d.toListed? 3 = some u ∧
      t.recolor? ⟨[2, 0, 2]⟩ [1, 1, 0] = some u ∧ u = ⟨[1, 1, 0]⟩) ∧
    ∃ q, Ring.recolor? ⟨[0, 1, 2], 3⟩ ⟨[2, 0, 2]⟩ [1, 2, 0] = some q ∧
      Listed.recolor? ⟨[0, 1, 2]⟩ ⟨[2, 0, 2]⟩ [1, 2, 0] = some q.toListed ∧
      q = ⟨[2, 1, 0], 3⟩ := by
  obtain ⟨words, rings⟩ := Coloring.views_agree
  constructor
  · obtain ⟨t, listed, views⟩ := words 3 ⟨0b010⟩ (by decide) (by decide)
    obtain ⟨d, u, packs, listed', lists⟩ :=
      views.recolor ⟨[2, 0, 2]⟩ 0b011 (by decide) (by simp)
    refine ⟨t, d, u, listed, packs, listed', lists, ?_⟩
    obtain rfl : ⟨0b011⟩ = d := Option.some.inj packs
    exact (Option.some.inj listed').symm
  · obtain ⟨q, paints, lists⟩ := (rings ⟨[0, 1, 2], 3⟩).recolor ⟨[2, 0, 2]⟩ [1, 2, 0]
      (by simp [Ring.size]) (by simp)
    exact ⟨q, paints, lists, (Option.some.inj paints).symm⟩

end RingLock
