import RingLock.Proofs.Puzzle.Verdict

/-!
# Agreement of the two models

For two colors the winning regions of the two models hold the same positions, read as packed and as
listed colorings. Their arenas differ at rings of one color and in the empty hand, but in both the
winning region is the set of positions from which the player cannot win.
-/
namespace RingLock.Puzzle

open Coloring

/-- A packed coloring and its list are colorings of the same ring. -/
theorem exists_listed {holes : ℕ} (short : holes ≤ 32) {b : Packed}
    (inside : b.bits.toNat < 2 ^ holes) : ∃ t : Listed, b.toListed? holes = some t ∧
      b ∈ (all holes 2 : List Packed) ∧ t ∈ (all holes 2 : List Listed) ∧
      ∀ ring : Fin holes → Fin 2, Shows b ring ↔ Shows t ring := by
  obtain ⟨t, run, long, same⟩ := Packed.exists_toListed? short b
  have word := (Packed.mem_words short).2 inside
  have member : b ∈ (all holes 2 : List Packed) := Packed.mem_all.2 word
  refine ⟨t, run, member, Listed.mem_all_of_shown (by decide) (fun i hi => ?_) ?_, fun ring => ?_⟩
  · rw [same i hi]
    exact (Packed.lawful short).proper b member i hi
  · exact List.getElem?_eq_none long.le
  · have agree (i : Fin holes) : Readable.color? t i = Readable.color? b i := same i i.isLt
    simp only [Shows, agree]

/-- A packed position is lost if and only if the listed one is. -/
theorem lost_iff_lost_listed {c d : Config} (holes : c.holes = d.holes) (hand : c.hand = d.hand)
    (two : c.colors = 2) (two' : d.colors = 2) (short : c.holes.toNat ≤ 32) {b : Packed}
    (inside : b.bits.toNat < 2 ^ c.holes.toNat) (s : Hand) :
    ∃ t, b.toListed? c.holes.toNat = some t ∧
      (Lost c (⟨b, s⟩ : Position Packed) ↔ Lost d (⟨t, s⟩ : Position Listed)) := by
  obtain ⟨t, listed, packed_member, listed_member, same⟩ := exists_listed short inside
  refine ⟨t, listed, ?_⟩
  cases c
  cases d
  subst holes hand two two'
  unfold Lost
  rw [mem_positions, mem_positions]
  -- Both colorings are listed, and they show the same rings.
  constructor
  · intro lost
    obtain ⟨⟨-, option⟩, ring, shown, forces⟩ := lost
    exact ⟨⟨listed_member, option⟩, ring, (same ring).1 shown, forces⟩
  · intro lost
    obtain ⟨⟨-, option⟩, ring, shown, forces⟩ := lost
    exact ⟨⟨packed_member, option⟩, ring, (same ring).2 shown, forces⟩

/-- On at most 16 holes the two models with two colors have corresponding winning regions and the
same verdict, whatever their seeds. Each lock is built whenever the draw of its initial coloring
ends. -/
theorem two_color_models_agree (holes hand : UInt64) (positive : 1 ≤ hand) (le : hand ≤ holes)
    (short : holes ≤ 16) (seed₁ seed₂ : UInt64) :
    let c := { Config.twoColor holes hand with seed := seed₁ }
    let d := { Config.manyColor holes hand 2 with seed := seed₂ }
    ((initial? c : Option (Option (Position Packed))).isSome →
      ∃ p, (twoColor c).run = some (.ok p)) ∧
    ((initial? d : Option (Option (Position Listed))).isSome →
      ∃ q, (manyColor d).run = some (.ok q)) ∧
    ∀ p q, (twoColor c).run = some (.ok p) → (manyColor d).run = some (.ok q) →
      (∃ w₁ w₂, p.winningRegion? = some w₁ ∧ q.winningRegion? = some w₂ ∧
        ∀ b : Packed, b.bits.toNat < 2 ^ holes.toNat → ∀ s : Hand, ∃ t,
          b.toListed? holes.toNat = some t ∧
            (p.arena.Holds w₁ ⟨b, s⟩ ↔ q.arena.Holds w₂ ⟨t, s⟩)) ∧
      ∃ verdict, p.playerWins? = some verdict ∧ q.playerWins? = some verdict := by
  intro c d
  have two : (2 : UInt64) ≤ 2 ∧ (2 : UInt64) ≤ Config.maxColors := by decide
  have model₁ : Model c (twoColorSteps? c) (Hand.full holes.toNat hand.toNat) :=
    model_twoColor ((Config.check_eq_ok_iff c).2 ⟨positive, le, short, two⟩) rfl
  have model₂ : Model d (manyColorSteps? d) (Hand.options holes.toNat hand.toNat) :=
    model_manyColor ((Config.check_eq_ok_iff d).2 ⟨positive, le, short, two⟩)
  refine ⟨exists_twoColor (c := c) model₁.checked, exists_manyColor model₂.checked,
    fun p q hp hq => ?_⟩
  obtain ⟨steps₁, expanded₁⟩ : ∃ steps, p.Expanded c (twoColorSteps? c) steps :=
    expand_eq_ok (run_twoColor.1 hp).2
  obtain ⟨steps₂, expanded₂⟩ := expand_eq_ok (run_manyColor.1 hq).2
  have small₁ := expanded₁.size_lt_of_two model₁ rfl
  have small₂ := expanded₂.size_lt_of_two model₂ rfl
  constructor
  · obtain ⟨w₁, run₁, -, -, holds₁⟩ := exists_winningRegion? model₁ expanded₁ small₁
    obtain ⟨w₂, run₂, -, -, holds₂⟩ := exists_winningRegion? model₂ expanded₂ small₂
    refine ⟨w₁, w₂, run₁, run₂, fun b inside s => ?_⟩
    have word : holes.toNat ≤ 32 := (UInt64.le_iff_toNat_le.1 short).trans (by decide)
    obtain ⟨t, listed, same⟩ := lost_iff_lost_listed (c := c) (d := d) rfl rfl rfl rfl word inside s
    exact ⟨t, listed, by rw [holds₁, holds₂, same]⟩
  · obtain ⟨wins₁, answer₁, meaning₁⟩ := exists_verdict model₁ expanded₁ small₁
    obtain ⟨wins₂, answer₂, meaning₂⟩ := exists_verdict model₂ expanded₂ small₂
    have same : wins₁ = wins₂ := Bool.eq_iff_iff.2 (meaning₁.trans meaning₂.symm)
    exact ⟨wins₁, answer₁, same ▸ answer₂⟩

set_option maxRecDepth 10000 in
/-- Two locks of three holes with different seeds. -/
theorem models_agree_on_three_holes :
    ∃ p q verdict, (twoColor { Config.twoColor 3 1 with seed := 7 }).run = some (.ok p) ∧
      (manyColor { Config.manyColor 3 1 2 with seed := 8 }).run = some (.ok q) ∧
      p.playerWins? = some verdict ∧ q.playerWins? = some verdict := by
  obtain ⟨first, second, agree⟩ :=
    two_color_models_agree 3 1 (by decide) (by decide) (by decide) 7 8
  obtain ⟨p, hp⟩ := first (by decide +kernel)
  obtain ⟨q, hq⟩ := second (by decide +kernel)
  obtain ⟨verdict, wins₁, wins₂⟩ := (agree p q hp hq).2
  exact ⟨p, q, verdict, hp, hq, wins₁, wins₂⟩

end RingLock.Puzzle
