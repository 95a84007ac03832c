import RingLock.Proofs.Coloring.Digits
import RingLock.Proofs.Puzzle.MoveCount

/-!
# The numbers of positions

The positions of a lock stand in the order of their colorings, and for one coloring in the order of
the hands, where no hand comes last. None stands twice. So the id of a position is told by the
number that the coloring spells and by the place of the hand, and the id of an arena is that of the
position there.
-/
namespace RingLock

namespace Hand

/-- After the full hands comes none. -/
theorem getElem?_options_choose (holes size : ℕ) :
    (options holes size)[holes.choose size]? = some empty := by
  rw [options, ← length_full]
  exact List.getElem?_concat_length

end Hand

namespace Puzzle

open Coloring

section

variable {C : Type} [DecidableEq C] [Hashable C] [Coloring C] {c : Config}

omit [DecidableEq C] [Hashable C] in
theorem getElem?_positions {k : ℕ} {b : C} {s : Hand} : (positions c)[k]? = some ⟨b, s⟩ ↔
    ∃ i j, (all c.holes.toNat c.colors.toNat : List C)[i]? = some b ∧
      (Hand.options c.holes.toNat c.hand.toNat)[j]? = some s ∧
      k = i * (c.holes.toNat.choose c.hand.toNat + 1) + j := by
  rw [positions, getElem?_flatMap_eq_some fun b _ =>
    (List.length_map ..).trans (Hand.length_options ..)]
  constructor
  · rintro ⟨i, j, b', coloring, part, place⟩
    obtain ⟨s', hand, same⟩ := Option.map_eq_some_iff.1 (List.getElem?_map.symm.trans part)
    obtain ⟨rfl, rfl⟩ := Position.mk.inj same
    exact ⟨i, j, coloring, hand, place⟩
  · rintro ⟨i, j, coloring, hand, place⟩
    exact ⟨i, j, b, coloring, by rw [List.getElem?_map, hand, Option.map_some], place⟩

variable [Readable C] {stepsFrom? : Position C → Option (List (Step C))} {hands : List Hand}

omit [Hashable C] in
/-- No position is enumerated twice. -/
theorem Model.nodup_positions (model : Model c stepsFrom? hands) :
    (positions c : List (Position C)).Nodup := by
  obtain ⟨one, -, short, -, few⟩ := Config.bounds_of_check model.checked
  rw [← Multiset.coe_nodup]
  apply Multiset.toFinset_card_eq_card_iff_nodup.1
  change (positions c : List (Position C)).toFinset.card = (positions c).length
  rw [toFinset_positions, Finset.card_map, Finset.card_product, model.lawful.card_all (by omega),
    Hand.card_toFinset_options (by omega) one, length_positions model.lawful]

/-- How the positions of a lock are numbered, where some colorings are proper and each of them
spells a number. -/
structure Numbered (p : Puzzle C) (c : Config) (Proper : C → Prop) (number : C → ℕ) : Prop where
  /-- The coloring at a place is the one that spells the place. -/
  coloring : ∀ i b, (all c.holes.toNat c.colors.toNat : List C)[i]? = some b ↔
    Proper b ∧ number b = i
  colorings : (all c.holes.toNat c.colors.toNat : List C).length =
    c.colors.toNat ^ c.holes.toNat
  /-- The last of the hands is none. -/
  last : (Hand.options c.holes.toNat c.hand.toNat).length =
      c.holes.toNat.choose c.hand.toNat + 1 ∧
    (Hand.options c.holes.toNat c.hand.toNat)[c.holes.toNat.choose c.hand.toNat]? = some .empty
  distinct : (positions c : List (Position C)).Nodup
  size : p.arena.size =
    c.colors.toNat ^ c.holes.toNat * (c.holes.toNat.choose c.hand.toNat + 1)
  location : ∀ id b s, p.arena.location? id = some ⟨b, s⟩ ↔
    ∃ i j, (all c.holes.toNat c.colors.toNat : List C)[i]? = some b ∧
      (Hand.options c.holes.toNat c.hand.toNat)[j]? = some s ∧
      id.index = i * (c.holes.toNat.choose c.hand.toNat + 1) + j
  inverse : ∀ q id, p.arena.idOf? q = some id ↔ p.arena.location? id = some q
  /-- All pairs of the model have an id, and no others. -/
  listed : ∀ q, (p.arena.idOf? q).isSome ↔
    Proper q.coloring ∧ (q.hand.Fills c.holes.toNat c.hand.toNat ∨ q.hand = .empty)
  actions : p.arena.actions.toList.map Action.amount = List.range c.holes.toNat

variable [Inspect C] {p : Puzzle C} {steps : List (List (Step C))}

/-- An id shows the position at its place. -/
theorem Expanded.location?_eq (model : Model c stepsFrom? hands)
    (expanded : p.Expanded c stepsFrom? steps) (id : LocId) :
    p.arena.location? id = (positions c)[id.index]? := by
  obtain ⟨initial, -, built⟩ := expanded.built
  obtain ⟨-, -, -, -, locations, -⟩ := Arena.build_eq_ok built
  rw [Arena.location?, locations, ← Numbering.getElem?_toList,
    Numbering.toList_ofList model.nodup_positions]

theorem Expanded.numbered (model : Model c stepsFrom? hands)
    (expanded : p.Expanded c stepsFrom? steps) (small : p.arena.size ≤ UInt32.size)
    {Proper : C → Prop} {number : C → ℕ}
    (coloring : ∀ i b, (all c.holes.toNat c.colors.toNat : List C)[i]? = some b ↔
      Proper b ∧ number b = i) : p.Numbered c Proper number := by
  obtain ⟨-, -, short, -, -⟩ := Config.bounds_of_check model.checked
  have range : c.holes.toNat < UInt16.size := short.trans_lt (by decide)
  obtain ⟨initial, -, built⟩ := expanded.built
  obtain ⟨-, -, -, -, locations, actions, -, -⟩ := Arena.build_eq_ok built
  have distinct := model.nodup_positions
  have proper (b : C) : b ∈ (all c.holes.toNat c.colors.toNat : List C) ↔ Proper b := by
    simp [List.mem_iff_getElem?, coloring]
  constructor
  case coloring => exact coloring
  case colorings => exact model.lawful.length_all
  case last => exact ⟨Hand.length_options .., Hand.getElem?_options_choose ..⟩
  case distinct => exact distinct
  case size =>
    rw [Arena.size, locations, Numbering.size_ofList distinct, length_positions model.lawful]
  case location =>
    intro id b s
    rw [expanded.location?_eq model, getElem?_positions]
  case inverse => exact fun q id => (Arena.location?_eq_some small).symm
  case listed =>
    intro q
    rw [(Arena.shows_of_build built small).listed, mem_positions, proper,
      Hand.mem_options_iff_fills (by omega)]
  case actions =>
    rw [actions, Numbering.toList_ofList (Action.nodup_range range),
      Action.map_amount_range range]

end

/-- The numbers of the positions, in both models and for every configuration that they accept and
whose positions are within the range of location ids. A coloring spells its number in base 2 with
hole 0 as the least significant digit in the one model, and in the base of the alphabet with hole 0
as the most significant digit in the other. -/
theorem locations_numbered (c : Config) :
    ({ c with colors := 2 }.check = .ok () →
      ((initial? { c with colors := 2 } : Option (Option (Position Packed))).isSome →
        ∃ p, (twoColor c).run = some (.ok p)) ∧
      ∀ p, (twoColor c).run = some (.ok p) → p.Numbered { c with colors := 2 }
        (fun b => b.bits.toNat < 2 ^ c.holes.toNat)
        fun b => Nat.ofDigits 2 (digits b c.holes.toNat)) ∧
    (c.check = .ok () →
      c.colors.toNat ^ c.holes.toNat * (c.holes.toNat.choose c.hand.toNat + 1) < UInt32.size →
      ((initial? c : Option (Option (Position Listed))).isSome →
        ∃ p, (manyColor c).run = some (.ok p)) ∧
      ∀ p, (manyColor c).run = some (.ok p) → p.Numbered c
        (fun b => b.colors.length = c.holes.toNat ∧ ∀ x ∈ b.colors, x.toNat < c.colors.toNat)
        fun b => Nat.ofDigits c.colors.toNat (digits b c.holes.toNat).reverse) := by
  refine ⟨fun checked => ⟨exists_twoColor checked, fun p built => ?_⟩,
    fun checked fits => ⟨exists_manyColor checked, fun p built => ?_⟩⟩
  · obtain ⟨model, steps, expanded⟩ := expanded_twoColor built
    obtain ⟨-, -, short, -, -⟩ := Config.bounds_of_check model.checked
    have small : p.arena.size < UInt32.size :=
      (expanded.size_lt_of_two model rfl).trans_le (Nat.sub_le ..)
    exact expanded.numbered model small.le fun i b => Packed.getElem?_all (short.trans (by decide))
  · obtain ⟨model, steps, expanded⟩ := expanded_manyColor built
    obtain ⟨-, -, -, -, few⟩ := Config.bounds_of_check model.checked
    have small : p.arena.size < UInt32.size := (expanded.size_le model.lawful).trans_lt fits
    exact expanded.numbered model small.le fun i b => Listed.getElem?_all (by omega)

/-- Positions of three holes with a hand of one. The word `110` without a hand has number
`6 * 4 + 3`, the colors 2, 0 and 1 with hole 1 have number `19 * 4 + 1`, and a word of four bits has
none. -/
theorem numbers_of_three_holes :
    (∃ p, (twoColor (.twoColor 3 1)).run = some (.ok p) ∧ p.arena.size = 32 ∧
      p.arena.location? (.ofNat 27) = some ⟨⟨6⟩, .empty⟩ ∧ p.arena.idOf? ⟨⟨8⟩, .empty⟩ = none) ∧
    ∃ p, (manyColor (.manyColor 3 1 3)).run = some (.ok p) ∧ p.arena.size = 108 ∧
      p.arena.idOf? ⟨⟨[2, 0, 1]⟩, ⟨[1]⟩⟩ = some (.ofNat 77) ∧
      p.arena.actions.toList.map Action.amount = [0, 1, 2] := by
  constructor
  · obtain ⟨built, numbers⟩ := (locations_numbered (.twoColor 3 1)).1 (by decide)
    obtain ⟨p, run⟩ := built (by decide +kernel)
    have numbered := numbers p run
    refine ⟨p, run, numbered.size, ?_, ?_⟩
    · exact (numbered.location _ _ _).2 ⟨6, 3, (numbered.coloring 6 ⟨6⟩).2 (by decide), rfl, rfl⟩
    · rw [← Option.not_isSome_iff_eq_none, numbered.listed]
      exact fun inside => absurd inside.1 (by decide)
  · obtain ⟨built, numbers⟩ := (locations_numbered (.manyColor 3 1 3)).2 (by decide) (by decide)
    obtain ⟨p, run⟩ := built (by decide +kernel)
    have numbered := numbers p run
    refine ⟨p, run, numbered.size, (numbered.inverse _ _).2 ?_, numbered.actions⟩
    have proper : ∀ x ∈ ([2, 0, 1] : List UInt8), x.toNat < 3 := by simp
    exact (numbered.location _ _ _).2
      ⟨19, 1, (numbered.coloring 19 _).2 ⟨⟨rfl, proper⟩, rfl⟩, rfl, rfl⟩

end Puzzle

end RingLock
