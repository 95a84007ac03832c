import Mathlib.Algebra.BigOperators.Ring.Finset
import Mathlib.Tactic.Ring
import RingLock.Proofs.Puzzle.Counting
import RingLock.Proofs.Puzzle.Relation

/-!
# The number of moves

The moves of a lock are counted source by source and action by action. From a ring of more than one
color every action leads on to one coloring for each recoloring of the hand, so to one alone if no
hand awaits it, and to every hand that may come next. At a ring of one color the two models differ.
-/
namespace RingLock

namespace Puzzle

open Coloring

/-- A position as a pair. -/
def pair (C : Type) : C × Hand ↪ Position C where
  toFun p := ⟨p.1, p.2⟩
  inj' p q same := by
    obtain ⟨colors, hands⟩ := Position.mk.inj same
    exact Prod.ext colors hands

theorem mem_map_pair {C : Type} {colorings : Finset C} {hands : Finset Hand} {q : Position C} :
    q ∈ (colorings ×ˢ hands).map (pair C) ↔ q.coloring ∈ colorings ∧ q.hand ∈ hands := by
  rw [Finset.mem_map]
  constructor
  · rintro ⟨⟨coloring, hand⟩, member, rfl⟩
    exact Finset.mem_product.1 member
  · intro member
    exact ⟨(q.coloring, q.hand), Finset.mem_product.2 member, rfl⟩

section

variable {C : Type} [DecidableEq C] [Hashable C] [Coloring C] [Readable C] {c : Config}
  {stepsFrom? : Position C → Option (List (Step C))} {hands : List Hand}

omit [Hashable C] [Readable C] in
theorem toFinset_positions : (positions c : List (Position C)).toFinset =
    ((all c.holes.toNat c.colors.toNat).toFinset ×ˢ
      (Hand.options c.holes.toNat c.hand.toNat).toFinset).map (pair C) := by
  ext q
  rw [List.mem_toFinset, mem_positions, mem_map_pair, List.mem_toFinset, List.mem_toFinset]

variable (c hands) in
/-- Where a turn, a recoloring of the hand and a choice of the next one lead. -/
def turned (q : Position C) (a : Action) : Finset (Position C) :=
  (((all c.holes.toNat c.colors.toNat).toFinset.filter fun d =>
    Carried q.coloring d q.hand c.holes.toNat a.amount) ×ˢ hands.toFinset).map (pair C)

omit [Hashable C] in
theorem mem_turned {q t : Position C} {a : Action} : t ∈ turned c hands q a ↔
    t.hand ∈ hands ∧ t.coloring ∈ (all c.holes.toNat c.colors.toNat : List C) ∧
      Carried q.coloring t.coloring q.hand c.holes.toNat a.amount := by
  rw [turned, mem_map_pair, Finset.mem_filter, List.mem_toFinset, List.mem_toFinset, and_comm]

omit [Hashable C] in
/-- The turns from a coloring, under all actions and with all hands. -/
theorem Model.sum_turned (model : Model c stepsFrom? hands) {b : C}
    (listed : b ∈ (all c.holes.toNat c.colors.toNat : List C)) :
    ∑ h ∈ (Hand.options c.holes.toNat c.hand.toNat).toFinset,
      ∑ a ∈ (Action.range c.holes.toNat).toFinset, (turned c hands ⟨b, h⟩ a).card =
        c.holes.toNat * hands.toFinset.card *
          (c.holes.toNat.choose c.hand.toNat * c.colors.toNat ^ c.hand.toNat + 1) := by
  obtain ⟨one, -, short, -, few⟩ := Config.bounds_of_check model.checked
  have range : c.holes.toNat < UInt16.size := short.trans_lt (by decide)
  have each (h : Hand) : ∀ a ∈ (Action.range c.holes.toNat).toFinset,
      (turned c hands ⟨b, h⟩ a).card =
        c.colors.toNat ^ (h.set c.holes.toNat).card * hands.toFinset.card := by
    intro a member
    have bounded := (Action.mem_range range).1 (List.mem_toFinset.1 member)
    rw [turned, Finset.card_map, Finset.card_product,
      model.lawful.card_carried (by omega) listed h bounded]
  simp only [Finset.sum_congr rfl (each _), Finset.sum_const, Action.card_range range,
    Nat.nsmul_eq_mul]
  rw [← Finset.mul_sum, ← Finset.sum_mul, Hand.sum_options (by omega) one]
  ring

variable [Inspect C] {p : Puzzle C} {steps : List (List (Step C))}

/-- The moves of a lock, source by source and action by action. -/
theorem Expanded.moveCount_eq_sum (model : Model c stepsFrom? hands)
    (expanded : p.Expanded c stepsFrom? steps) (small : p.arena.size ≤ UInt32.size)
    {stays : Position C → Action → Finset (Position C)}
    (uniform : ∀ q ∈ positions c, OneColor q.coloring c.holes.toNat → ∀ a t,
      (∃ made, stepsFrom? q = some made ∧ (q, a, t) ∈ made) ↔
        a ∈ Action.range c.holes.toNat ∧ t ∈ stays q a) :
    p.arena.moveCount = ∑ q ∈ (positions c).toFinset, ∑ a ∈ (Action.range c.holes.toNat).toFinset,
      (if OneColor q.coloring c.holes.toNat then stays q a else turned c hands q a).card := by
  obtain ⟨-, -, short, -, -⟩ := Config.bounds_of_check model.checked
  obtain ⟨initial, -, built⟩ := expanded.built
  rw [(Arena.shows_of_build built small).moveCount_eq]
  refine Arena.length_eraseDups_moves fun q a t => ?_
  rw [← expanded.hasMove_iff small, hasMove_iff_of_model model expanded small, List.mem_toFinset,
    List.mem_toFinset]
  refine and_congr_right fun listed => ?_
  by_cases one_color : OneColor q.coloring c.holes.toNat
  · simp [one_color, uniform q listed one_color]
  · simp [one_color, mem_turned, Action.mem_range (short.trans_lt (by decide))]

/-- The moves of a lock in numbers, where as many start at each ring of one color. -/
theorem Expanded.moveCount_eq (model : Model c stepsFrom? hands)
    (expanded : p.Expanded c stepsFrom? steps) (small : p.arena.size ≤ UInt32.size)
    (stays : Position C → Action → Finset (Position C)) (staying : ℕ)
    (uniform : ∀ q ∈ positions c, OneColor q.coloring c.holes.toNat → ∀ a t,
      (∃ made, stepsFrom? q = some made ∧ (q, a, t) ∈ made) ↔
        a ∈ Action.range c.holes.toNat ∧ t ∈ stays q a)
    (count : ∀ q ∈ positions c,
      ∑ a ∈ (Action.range c.holes.toNat).toFinset, (stays q a).card = staying) :
    p.arena.moveCount =
      c.colors.toNat * ((c.holes.toNat.choose c.hand.toNat + 1) * staying) +
        (c.colors.toNat ^ c.holes.toNat - c.colors.toNat) *
          (c.holes.toNat * hands.toFinset.card *
            (c.holes.toNat.choose c.hand.toNat * c.colors.toNat ^ c.hand.toNat + 1)) := by
  obtain ⟨one, le, short, -, few⟩ := Config.bounds_of_check model.checked
  have hands_of (b : C) (listed : b ∈ (all c.holes.toNat c.colors.toNat : List C)) :
      ∑ h ∈ (Hand.options c.holes.toNat c.hand.toNat).toFinset,
        ∑ a ∈ (Action.range c.holes.toNat).toFinset,
          (if OneColor b c.holes.toNat then stays ⟨b, h⟩ a else turned c hands ⟨b, h⟩ a).card =
        if OneColor b c.holes.toNat then (c.holes.toNat.choose c.hand.toNat + 1) * staying else
          c.holes.toNat * hands.toFinset.card *
            (c.holes.toNat.choose c.hand.toNat * c.colors.toNat ^ c.hand.toNat + 1) := by
    split
    case isTrue =>
      rw [← Hand.card_toFinset_options (by omega) one, ← Nat.nsmul_eq_mul, ← Finset.sum_const]
      refine Finset.sum_congr rfl fun h option => count ⟨b, h⟩ ?_
      exact mem_positions.2 ⟨listed, List.mem_toFinset.1 option⟩
    case isFalse => exact model.sum_turned listed
  -- Positions are colorings with hands. Only the coloring tells the two kinds of source apart.
  rw [expanded.moveCount_eq_sum model small uniform, toFinset_positions, Finset.sum_map,
    Finset.sum_product]
  refine (Finset.sum_congr rfl fun b listed => hands_of b (List.mem_toFinset.1 listed)).trans ?_
  rw [Finset.sum_ite, Finset.sum_const, Finset.sum_const, Nat.nsmul_eq_mul, Nat.nsmul_eq_mul,
    model.lawful.card_oneColor (by omega) (by omega),
    model.lawful.card_not_oneColor (by omega) (by omega)]

end

/-- The moves of an expanded two-color lock in numbers. -/
theorem moveCount_of_twoColor {c : Config} {p : Puzzle Packed}
    {steps : List (List (Step Packed))}
    (model : Model c (twoColorSteps? c) (Hand.full c.holes.toNat c.hand.toNat))
    (expanded : p.Expanded c (twoColorSteps? c) steps) (small : p.arena.size ≤ UInt32.size) :
    p.arena.moveCount =
      c.colors.toNat * (c.holes.toNat.choose c.hand.toNat + 1) +
        (c.colors.toNat ^ c.holes.toNat - c.colors.toNat) *
          (c.holes.toNat * c.holes.toNat.choose c.hand.toNat *
            (c.holes.toNat.choose c.hand.toNat * c.colors.toNat ^ c.hand.toNat + 1)) := by
  obtain ⟨one, le, short, -, -⟩ := Config.bounds_of_check model.checked
  have zero : .ofNat 0 ∈ Action.range c.holes.toNat := by
    refine (Action.mem_range (short.trans_lt (by decide))).2 ?_
    rw [Action.amount_ofNat (by decide)]
    omega
  rw [← Nat.mul_one (c.holes.toNat.choose c.hand.toNat + 1)]
  refine (expanded.moveCount_eq model small (fun q a => if a = .ofNat 0 then {q} else ∅) 1
    (fun q listed one_color a t => ?_) fun q _ => ?_).trans ?_
  · have uniform := (model.lawful.isUniform_iff _ (mem_positions.1 listed).1).2 one_color
    rw [mem_twoColorSteps?_of_uniform uniform, ← Action.eq_zero_iff]
    by_cases stays : a = .ofNat 0
    · simp [stays, zero]
    · simp [stays]
  · simp [apply_ite Finset.card, zero]
  · rw [Hand.card_toFinset_full (by omega)]

/-- The moves of an expanded many-color lock in numbers. -/
theorem moveCount_of_manyColor {c : Config} {p : Puzzle Listed}
    {steps : List (List (Step Listed))}
    (model : Model c (manyColorSteps? c) (Hand.options c.holes.toNat c.hand.toNat))
    (expanded : p.Expanded c (manyColorSteps? c) steps) (small : p.arena.size ≤ UInt32.size) :
    p.arena.moveCount = c.holes.toNat * (c.holes.toNat.choose c.hand.toNat + 1) *
      (c.colors.toNat * (c.holes.toNat.choose c.hand.toNat + 1) +
        (c.colors.toNat ^ c.holes.toNat - c.colors.toNat) *
          (c.holes.toNat.choose c.hand.toNat * c.colors.toNat ^ c.hand.toNat + 1)) := by
  obtain ⟨one, -, short, -, -⟩ := Config.bounds_of_check model.checked
  have range : c.holes.toNat < UInt16.size := short.trans_lt (by decide)
  refine (expanded.moveCount_eq model small (fun q _ => ({q.coloring} ×ˢ
      (Hand.options c.holes.toNat c.hand.toNat).toFinset).map (pair Listed))
    (c.holes.toNat * (c.holes.toNat.choose c.hand.toNat + 1))
    (fun q listed one_color a t => ?_) fun q _ => ?_).trans ?_
  · have uniform := (model.lawful.isUniform_iff _ (mem_positions.1 listed).1).2 one_color
    rw [mem_manyColorSteps?_of_uniform short uniform, ← Hand.mem_options_iff_fills (by omega),
      ← Action.mem_range range, mem_map_pair, Finset.mem_singleton, List.mem_toFinset]
  · rw [Finset.sum_const, Finset.card_map, Finset.card_product, Finset.card_singleton, Nat.one_mul,
      Action.card_range range, Hand.card_toFinset_options (by omega) one, Nat.nsmul_eq_mul]
  · rw [Hand.card_toFinset_options (by omega) one]
    ring

/-- The moves of a lock in closed form, in both models and for every configuration that they accept
and whose positions are within the range of location ids. -/
theorem moveCount_closed_form (c : Config) :
    ({ c with colors := 2 }.check = .ok () →
      ((initial? { c with colors := 2 } : Option (Option (Position Packed))).isSome →
        ∃ p, (twoColor c).run = some (.ok p)) ∧
      ∀ p, (twoColor c).run = some (.ok p) → p.arena.moveCount =
        2 * (c.holes.toNat.choose c.hand.toNat + 1) +
          (2 ^ c.holes.toNat - 2) * c.holes.toNat * c.holes.toNat.choose c.hand.toNat *
            (c.holes.toNat.choose c.hand.toNat * 2 ^ c.hand.toNat + 1)) ∧
    (c.check = .ok () →
      c.colors.toNat ^ c.holes.toNat * (c.holes.toNat.choose c.hand.toNat + 1) < UInt32.size →
      ((initial? c : Option (Option (Position Listed))).isSome →
        ∃ p, (manyColor c).run = some (.ok p)) ∧
      ∀ p, (manyColor c).run = some (.ok p) → p.arena.moveCount =
        c.holes.toNat * (c.holes.toNat.choose c.hand.toNat + 1) *
          (c.colors.toNat * (c.holes.toNat.choose c.hand.toNat + 1) +
            (c.colors.toNat ^ c.holes.toNat - c.colors.toNat) *
              (c.holes.toNat.choose c.hand.toNat * c.colors.toNat ^ c.hand.toNat + 1))) := by
  refine ⟨fun checked => ⟨exists_twoColor checked, fun p built => ?_⟩,
    fun checked fits => ⟨exists_manyColor checked, fun p built => ?_⟩⟩
  · obtain ⟨model, steps, expanded⟩ := expanded_twoColor built
    have small : p.arena.size < UInt32.size :=
      (expanded.size_lt_of_two model rfl).trans_le (Nat.sub_le ..)
    have count := moveCount_of_twoColor model expanded small.le
    rwa [← Nat.mul_assoc, ← Nat.mul_assoc] at count
  · obtain ⟨model, steps, expanded⟩ := expanded_manyColor built
    have small : p.arena.size < UInt32.size := (expanded.size_le model.lawful).trans_lt fits
    exact moveCount_of_manyColor model expanded small.le

/-- The locks of three holes with a hand of one, over two and over three colors. -/
theorem moveCount_of_three_holes :
    (∃ p, (twoColor (.twoColor 3 1)).run = some (.ok p) ∧ p.arena.moveCount = 386) ∧
    ∃ p, (manyColor (.manyColor 3 1 3)).run = some (.ok p) ∧ p.arena.moveCount = 3024 := by
  constructor
  · obtain ⟨built, count⟩ := (moveCount_closed_form (.twoColor 3 1)).1 (by decide)
    obtain ⟨p, run⟩ := built (by decide +kernel)
    exact ⟨p, run, count p run⟩
  · obtain ⟨built, count⟩ := (moveCount_closed_form (.manyColor 3 1 3)).2 (by decide) (by decide)
    obtain ⟨p, run⟩ := built (by decide +kernel)
    exact ⟨p, run, count p run⟩

end Puzzle

end RingLock
