import RingLock.Proofs.Puzzle.Numbering
import RingLock.Proofs.Puzzle.Verdict

/-!
# Building a lock

A lock is refused for the cause for which its configuration is refused, and for no other. From a
checked configuration it is built as soon as the draw of its initial coloring ends: the enumeration
and the moves never overflow, and no move leads out of the positions. The initial position has no
hand.

The initial id is the place of that position modulo `2 ^ 32`. So it shows the position if its place
is within the range of ids, as it is in the two-color model, and another position if it is not.
-/
namespace RingLock

/-- The draw of the initial coloring, by its place among all colorings of the ring. -/
def Config.draw? (c : Config) : Option (ℕ × Generator) :=
  let count := c.colors.toNat ^ c.holes.toNat
  if count < UInt32.size then (Generator.ofSeed c.seed).below32? count
  else (Generator.ofSeed c.seed).below64? count

/-- The place of the drawn coloring among all positions, where no hand comes last. -/
def Config.initialPlace? (c : Config) : Option ℕ :=
  c.draw?.map fun drawn =>
    drawn.1 * (c.holes.toNat.choose c.hand.toNat + 1) + c.holes.toNat.choose c.hand.toNat

namespace Puzzle

open Coloring

variable {C : Type} [DecidableEq C] [Hashable C] [Coloring C] {c : Config}

omit [DecidableEq C] [Hashable C] in
/-- The initial position has the drawn coloring and no hand. -/
theorem initial?_eq [Readable C] (checked : c.check = .ok ())
    (lawful : Lawful C c.holes.toNat c.colors.toNat) :
    (initial? c : Option (Option (Position C))) = c.draw?.map fun drawn =>
      (all c.holes.toNat c.colors.toNat)[drawn.1]?.map fun coloring => ⟨coloring, .empty⟩ := by
  rw [initial?, Generator.choose?_eq (all_ne_nil checked lawful), lawful.length_all,
    Option.map_map]
  rfl

omit [DecidableEq C] [Hashable C] in
theorem initial?_isSome_iff [Readable C] (checked : c.check = .ok ())
    (lawful : Lawful C c.holes.toNat c.colors.toNat) :
    (initial? c : Option (Option (Position C))).isSome ↔ c.draw?.isSome := by
  rw [initial?_eq checked lawful, Option.isSome_map]

omit [DecidableEq C] [Hashable C] in
/-- What is drawn first is a coloring, and no hand awaits recoloring. -/
theorem of_initial? [Readable C] (checked : c.check = .ok ())
    (lawful : Lawful C c.holes.toNat c.colors.toNat) {q : Position C}
    (drawn : initial? c = some (some q)) : ∃ place coloring, c.initialPlace? = some place ∧
      coloring ∈ (all c.holes.toNat c.colors.toNat : List C) ∧
      (positions c)[place]? = some ⟨coloring, .empty⟩ ∧ q = ⟨coloring, .empty⟩ := by
  rw [initial?_eq checked lawful] at drawn
  obtain ⟨⟨i, g⟩, draw, found⟩ := Option.map_eq_some_iff.1 drawn
  obtain ⟨coloring, listed, rfl⟩ := Option.map_eq_some_iff.1 found
  have place := congrArg (Option.map fun drawn =>
    drawn.1 * (c.holes.toNat.choose c.hand.toNat + 1) + c.holes.toNat.choose c.hand.toNat) draw
  refine ⟨_, coloring, place, List.mem_of_getElem? listed, ?_, rfl⟩
  exact getElem?_positions.2 ⟨i, _, listed, Hand.getElem?_options_choose .., rfl⟩

variable [Inspect C]

/-- A lock starts at a coloring without a hand: the one that is drawn, at its place among the
positions. The initial id is this place as far as ids reach. -/
structure StartsAt (p : Puzzle C) (c : Config) (coloring : C) (place : ℕ) : Prop where
  drawn : c.initialPlace? = some place
  listed : coloring ∈ (all c.holes.toNat c.colors.toNat : List C)
  position : (positions c)[place]? = some ⟨coloring, .empty⟩
  id : p.arena.initial = .ofNat place
  numbered : p.arena.idOf? ⟨coloring, .empty⟩ = some p.arena.initial
  /-- The initial location is this position exactly if its place is within the range of ids. -/
  shown : p.arena.initialLocation? = some ⟨coloring, .empty⟩ ↔ place < UInt32.size
  /-- So it is if there are no more locations than ids. -/
  within : p.arena.size ≤ UInt32.size → place < UInt32.size

/-- An attempt to build the lock of a configuration comes to what the configuration deserves. -/
structure Decides (c : Config) (attempt : Attempt (Puzzle C)) : Prop where
  /-- It is refused for the cause that the check reports. -/
  refused : ∀ fault, attempt.run = some (.error fault) ↔ c.check = .error fault
  /-- It succeeds for a checked configuration whose draw ends. -/
  built : (∃ p, attempt.run = some (.ok p)) ↔ c.check = .ok () ∧ c.draw?.isSome
  starts : ∀ p, attempt.run = some (.ok p) → ∃ coloring place, p.StartsAt c coloring place

variable {stepsFrom? : Position C → Option (List (Step C))} {hands : List Hand}

theorem run_expand_eq_none (pending : (initial? c : Option (Option (Position C))) = none) :
    (expand c stepsFrom?).run = none := by
  unfold expand
  rw [pending]
  rfl

variable [Readable C]

/-- The expansion of a checked lock either succeeds or waits for its draw forever. -/
theorem run_expand_cases (model : Model c stepsFrom? hands) :
    (c.draw?.isSome ∧ ∃ p, (expand c stepsFrom?).run = some (.ok p)) ∨
      (¬c.draw?.isSome ∧ (expand c stepsFrom?).run = none) := by
  rw [← initial?_isSome_iff (C := C) model.checked model.lawful]
  by_cases drawn : (initial? c : Option (Option (Position C))).isSome
  · exact .inl ⟨drawn, exists_expand model drawn⟩
  · exact .inr ⟨drawn, run_expand_eq_none (Option.not_isSome_iff_eq_none.1 drawn)⟩

theorem startsAt_of_expand (model : Model c stepsFrom? hands) {p : Puzzle C}
    (run : (expand c stepsFrom?).run = some (.ok p)) :
    ∃ coloring place, p.StartsAt c coloring place := by
  obtain ⟨steps, expanded⟩ := expand_eq_ok run
  obtain ⟨initial, drawn, built⟩ := expanded.built
  obtain ⟨place, coloring, place_eq, listed, there, rfl⟩ :=
    of_initial? model.checked model.lawful drawn
  obtain ⟨first, -, found, -, locations, -, same, -⟩ := Arena.build_eq_ok built
  obtain ⟨inside, -⟩ := List.getElem?_eq_some_iff.1 there
  have distinct {k : ℕ} (other : (positions c)[k]? = some ⟨coloring, .empty⟩) : place = k :=
    (List.getElem?_inj inside model.nodup_positions).1 (there.trans other.symm)
  have size : p.arena.size = (positions c : List (Position C)).length := by
    rw [Arena.size, locations, Numbering.size_ofList model.nodup_positions]
  obtain rfl : place = first := by
    rw [Numbering.find?_eq_some_iff, ← Numbering.getElem?_toList,
      Numbering.toList_ofList model.nodup_positions] at found
    exact distinct found
  refine ⟨coloring, place, place_eq, listed, there, same, ?_, ?_, fun small => ?_⟩
  · rw [Arena.idOf?, locations, found, same]
    rfl
  · rw [Arena.initialLocation?, expanded.location?_eq model, same]
    constructor
    · intro shown
      exact distinct shown ▸ LocId.index_lt _
    · intro small
      rw [LocId.index_ofNat small, there]
  · exact inside.trans_le (size ▸ small)

/-- A model is expanded behind the check of its configuration. -/
theorem decides_of_model (model : c.check = .ok () → Model c stepsFrom? hands) :
    Decides c (Attempt.ofExcept c.check >>= fun _ => expand c stepsFrom?) := by
  have run := Attempt.run_check_then c.check (expand c stepsFrom?)
  cases checked : c.check with
  | error fault =>
    rw [checked] at run
    constructor
    case refused => simp [run, checked]
    case built => simp [run, checked]
    case starts => simp [run]
  | ok =>
    rw [checked] at run
    constructor
    case refused =>
      rcases run_expand_cases (model checked) with ⟨-, p, built⟩ | ⟨-, pending⟩
      · simp [run, built, checked]
      · simp [run, pending, checked]
    case built =>
      rcases run_expand_cases (model checked) with ⟨drawn, p, built⟩ | ⟨endless, pending⟩
      · simp [run, built, checked, drawn]
      · simp [run, pending, endless]
    case starts =>
      intro p built
      rw [run] at built
      exact startsAt_of_expand (model checked) built

theorem decides_twoColor (c : Config) : Decides { c with colors := 2 } (twoColor c) :=
  decides_of_model fun checked => model_twoColor checked rfl

theorem initialLocation?_twoColor {p : Puzzle Packed} (built : (twoColor c).run = some (.ok p)) :
    ∃ coloring ∈ (all c.holes.toNat 2 : List Packed),
      p.arena.initialLocation? = some ⟨coloring, .empty⟩ := by
  obtain ⟨model, steps, expanded⟩ := expanded_twoColor built
  have small : p.arena.size < UInt32.size :=
    (expanded.size_lt_of_two model rfl).trans_le (Nat.sub_le ..)
  obtain ⟨coloring, place, starts⟩ := (decides_twoColor c).starts p built
  exact ⟨coloring, starts.listed, starts.shown.2 (starts.within small.le)⟩

/-- The lock of a configuration is built if and only if the check accepts the sizes, with two colors
in the two-color model, and the draw of the initial coloring ends. Otherwise it is refused as the
check says. Neither a fault of the arena nor an overflow ever comes up. The initial location is a
coloring without a hand as far as ids reach, and always in the two-color model. -/
theorem construction_decided (c : Config) :
    Decides { c with colors := 2 } (twoColor c) ∧
    (∀ p, (twoColor c).run = some (.ok p) → ∃ coloring ∈ (all c.holes.toNat 2 : List Packed),
      p.arena.initialLocation? = some ⟨coloring, .empty⟩) ∧
    Decides c (manyColor c) :=
  ⟨decides_twoColor c, fun _ => initialLocation?_twoColor, decides_of_model model_manyColor⟩

set_option maxRecDepth 10000 in
/-- Three holes are enough for a hand of two and not for a hand of four. The draws of both models
end, and in three colors it is the coloring at place 6. -/
theorem construction_of_three_holes :
    (∃ p, (manyColor (.manyColor 3 2 3)).run = some (.ok p) ∧
      ∃ coloring, p.arena.initialLocation? = some ⟨coloring, .empty⟩) ∧
    (∃ p, (twoColor (.manyColor 3 2 9)).run = some (.ok p) ∧
      ∃ coloring, p.arena.initialLocation? = some ⟨coloring, .empty⟩) ∧
    (manyColor (.manyColor 3 2 9)).run = some (.error (.colorCount 9 8)) ∧
    (twoColor (.twoColor 3 4)).run = some (.error (.handTooLarge 4 3)) := by
  refine ⟨?_, ?_, ?_, ?_⟩
  · obtain ⟨-, -, decided⟩ := construction_decided (.manyColor 3 2 3)
    obtain ⟨p, run⟩ := decided.built.2 ⟨by decide, by decide +kernel⟩
    obtain ⟨coloring, place, starts⟩ := decided.starts p run
    obtain rfl : 27 = place := Option.some.inj (Eq.trans (by decide +kernel) starts.drawn)
    exact ⟨p, run, coloring, starts.shown.2 (by decide)⟩
  · obtain ⟨decided, starts, -⟩ := construction_decided (.manyColor 3 2 9)
    obtain ⟨p, run⟩ := decided.built.2 ⟨by decide, by decide +kernel⟩
    obtain ⟨coloring, -, shown⟩ := starts p run
    exact ⟨p, run, coloring, shown⟩
  · exact ((construction_decided (.manyColor 3 2 9)).2.2.refused _).2 (by decide)
  · exact ((construction_decided (.twoColor 3 4)).1.refused _).2 (by decide)

set_option maxRecDepth 10000 in
/-- Sixteen holes, a hand of two and three colors make more positions than there are ids. The draw
of this seed is at place `37938828 * 121 + 120`. This is `2443231 * 121 + 61` modulo `2 ^ 32`, and
the hand at place 61 is that of holes 4 and 12. -/
theorem initial_hand_of_sixteen_holes :
    ∃ p, (manyColor ⟨16, 2, 3, 2⟩).run = some (.ok p) ∧
      p.arena.initialLocation? =
        some ⟨⟨[0, 0, 1, 1, 1, 2, 1, 0, 1, 0, 1, 1, 1, 0, 0, 1]⟩, ⟨[4, 12]⟩⟩ ∧
      ∀ coloring, p.arena.initialLocation? ≠ some ⟨coloring, .empty⟩ := by
  have checked : (⟨16, 2, 3, 2⟩ : Config).check = .ok () := by decide
  have model := model_manyColor checked
  have draws : (⟨16, 2, 3, 2⟩ : Config).initialPlace? = some 4590598308 := by decide +kernel
  have drawn : (⟨16, 2, 3, 2⟩ : Config).draw?.isSome := by
    rw [← Option.isSome_map]
    exact Option.isSome_of_eq_some draws
  obtain ⟨p, run⟩ := exists_expand model ((initial?_isSome_iff checked model.lawful).2 drawn)
  obtain ⟨_, place, starts⟩ := startsAt_of_expand model run
  obtain ⟨steps, expanded⟩ := expand_eq_ok run
  obtain rfl : 4590598308 = place := Option.some.inj (draws.symm.trans starts.drawn)
  have shown : p.arena.initialLocation? =
      some ⟨⟨[0, 0, 1, 1, 1, 2, 1, 0, 1, 0, 1, 1, 1, 0, 0, 1]⟩, ⟨[4, 12]⟩⟩ := by
    rw [Arena.initialLocation?, expanded.location?_eq model, starts.id, getElem?_positions]
    refine ⟨2443231, 61, ?_, by decide +kernel, by decide⟩
    exact (Listed.getElem?_all (by decide)).2 ⟨⟨rfl, by simp⟩, by decide⟩
  refine ⟨p, run_manyColor.2 ⟨checked, run⟩, shown, fun coloring other => ?_⟩
  have no_hand : (⟨[4, 12]⟩ : Hand) = .empty :=
    congrArg Position.hand (Option.some.inj (shown.symm.trans other))
  exact absurd no_hand (by decide)

end Puzzle

end RingLock
