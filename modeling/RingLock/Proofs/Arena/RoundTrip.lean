import RingLock.Proofs.Arena.Restored
import RingLock.Proofs.Encoding.RoundTrip

/-!
# Stored arenas are read back

The snapshot of a valid arena is sound and restores to the arena itself, with its look-up tables. No
list in it is longer than the ids, the actions or the classes can tell apart, so it is read back
from its form, and what follows is dropped.
-/
namespace RingLock

/-- Distinct items that are told apart by numbers below a bound are at most as many. -/
theorem length_le_of_injective {α : Type} {number : α → ℕ} (injective : number.Injective)
    {xs : List α} (distinct : xs.Nodup) {bound : ℕ} (inside : ∀ x ∈ xs, number x < bound) :
    xs.length ≤ bound := by
  have numbers : xs.map number ⊆ List.range bound := by
    intro n member
    obtain ⟨x, present, rfl⟩ := List.mem_map.1 member
    exact List.mem_range.2 (inside x present)
  have fewer := ((distinct.map injective).subperm numbers).length_le
  rwa [List.length_map, List.length_range] at fewer

variable {L : Type} [DecidableEq L] [Hashable L]

namespace Arena

variable {g : Arena L}

theorem Valid.exists_cell? {row : List (List LocId)} {ids : List LocId}
    (inTable : row ∈ g.snapshot.successors) (inRow : ids ∈ row) :
    ∃ source action, g.successors.cell? source action = some ids := by
  obtain ⟨stored, present, rfl⟩ : ∃ stored ∈ g.successors, stored.toList = row := by
    simpa [snapshot] using inTable
  exact SuccessorTable.exists_cell? present (Array.mem_toList_iff.1 inRow)

/-- The snapshot of a valid arena describes it. Its moves have to be few enough for their number to
be stored. -/
theorem Valid.sound_snapshot (valid : g.Valid) (counted : g.moveCount < UInt64.size) :
    g.snapshot.Sound where
  locations := g.locations.nodup_toList
  actions := g.actions.nodup_toList
  initial := valid.initial.trans_eq g.locations.size_eq_length
  rows := by
    have rows := valid.sized.rows
    rw [size, Numbering.size_eq_length] at rows
    simpa [snapshot] using rows
  columns row member := by
    obtain ⟨stored, present, rfl⟩ : ∃ stored ∈ g.successors, stored.toList = row := by
      simpa [snapshot] using member
    rw [Array.length_toList, valid.sized.columns stored present]
    exact g.actions.size_eq_length
  targets row inTable ids inRow := by
    obtain ⟨source, action, found⟩ := Valid.exists_cell? inTable inRow
    refine ⟨fun id among => ?_, valid.increasing found⟩
    exact (valid.closed found id among).trans_eq g.locations.size_eq_length
  moveCount := by
    have entries : g.snapshot.entryCount = g.successors.count := by
      simp [snapshot, Snapshot.entryCount, SuccessorTable.count, Function.comp_def]
    rw [entries, ← valid.moveCount]
    exact (UInt64.toNat_ofNat_of_lt' counted).symm
  classes classes attached := by
    obtain ⟨stored, found, rfl⟩ := Option.map_eq_some_iff.1 attached
    rw [Array.length_toList, valid.classes stored found]
    exact g.locations.size_eq_length

theorem Valid.arena_snapshot (valid : g.Valid) : g.snapshot.arena = g := by
  have locations : Numbering.ofList g.snapshot.locations = g.locations := valid.locations
  have actions : Numbering.ofList g.snapshot.actions = g.actions := valid.actions
  have successors : (g.snapshot.successors.map List.toArray).toArray = g.successors := by
    simp [snapshot, Function.comp_def]
  have entries : g.snapshot.entryCount = g.moveCount := by
    rw [valid.moveCount]
    simp [snapshot, Snapshot.entryCount, SuccessorTable.count, Function.comp_def]
  have classes : g.snapshot.classes.map List.toArray = g.classes := by
    simp [snapshot, Function.comp_def]
  unfold Snapshot.arena
  rw [locations, actions, successors, entries, classes]
  rfl

end Arena

namespace Snapshot

open Binary

variable {s : Snapshot L}

omit [DecidableEq L] [Hashable L] in
theorem Sound.length_actions (sound : s.Sound) : s.actions.length ≤ UInt16.size := by
  have injective : Function.Injective Action.amount := fun a b same => by
    rw [← Action.ofNat_amount a, same, Action.ofNat_amount]
  exact length_le_of_injective injective sound.actions fun a _ => UInt16.toNat_lt_size a.number

omit [DecidableEq L] [Hashable L] in
theorem Sound.length_targets (sound : s.Sound) {row : List (List LocId)}
    (inTable : row ∈ s.successors) {ids : List LocId} (inRow : ids ∈ row) :
    ids.length ≤ s.locations.length := by
  obtain ⟨inside, increasing⟩ := sound.targets row inTable ids inRow
  have injective : Function.Injective LocId.index := fun a b same => by
    rw [← LocId.ofNat_index a, same, LocId.ofNat_index]
  have distinct : ids.Nodup :=
    increasing.imp fun less same => absurd (congrArg LocId.index same) (Nat.ne_of_lt less)
  exact length_le_of_injective injective distinct inside

omit [DecidableEq L] [Hashable L] in
theorem Sound.readsBack [Binary L] (sound : s.Sound) (small : s.locations.length < UInt32.size)
    (each : ∀ l ∈ s.locations, ReadsBack l) : ReadsBack s := by
  have locations : ReadsBack s.locations := readsBack_list (small.trans (by decide)) each
  have actions : ReadsBack s.actions :=
    readsBack_list (sound.length_actions.trans_lt (by decide)) fun a _ => readsBack_action a
  have successors : ReadsBack s.successors := by
    apply readsBack_list (sound.rows.trans_lt (small.trans (by decide)))
    intro row inTable
    apply readsBack_list
    · rw [sound.columns row inTable]
      exact sound.length_actions.trans_lt (by decide)
    intro ids inRow
    apply readsBack_list _ fun id _ => readsBack_locId id
    exact (sound.length_targets inTable inRow).trans_lt (small.trans (by decide))
  have classes : ReadsBack s.classes := by
    apply readsBack_option
    intro classes attached
    apply readsBack_list _ fun c _ => readsBack_observationClass c
    exact (sound.classes classes attached).trans_lt (small.trans (by decide))
  have read : Reads decode (encode s.locations ++ (encode s.initial ++ (encode s.actions ++
      (encode s.successors ++ (encode s.moveCount ++ (encode s.classes ++ [])))))) s :=
    locations.bind ((readsBack_locId s.initial).bind (actions.bind (successors.bind
      ((readsBack_uint64 s.moveCount).bind (classes.bind (Reads.pure s))))))
  simp only [← List.append_assoc, List.append_nil] at read
  exact read

end Snapshot

namespace Arena

open Binary

/-- An arena is read back from its stored form, whatever follows it: the same locations, actions,
successors and classes, and the same look-up tables. So it answers every query and has the same
winning regions. Its ids have 32 bits and its number of moves is stored in 64. Numbers and
characters are read back from their forms, and so are texts and positions whose lists are not too
long to be stored. -/
theorem ofBytes_toBytes :
    (∀ {L : Type} [DecidableEq L] [Hashable L] [Inspect L] [Binary L] {g : Arena L}, g.Issued →
      g.size < UInt32.size → g.moveCount < UInt64.size → (∀ l ∈ g.locations.toList, ReadsBack l) →
        ∀ rest, ofBytes (g.toBytes ++ rest) = .ok g) ∧
    (∀ n : Int64, ReadsBack n) ∧ (∀ c : Char, ReadsBack c) ∧
      (∀ s : String, (Utf8.encode s).length < UInt64.size → ReadsBack s) ∧
      (∀ p : Position Packed, Roomy p.hand.holes → ReadsBack p) ∧
      ∀ p : Position Listed, Roomy p.coloring.colors → Roomy p.hand.holes → ReadsBack p := by
  refine ⟨?_, readsBack_int64, readsBack_char, fun _ => readsBack_string, ?_, ?_⟩
  case refine_2 =>
    exact fun p roomy => readsBack_position (readsBack_packed p.coloring) (readsBack_hand roomy)
  case refine_3 =>
    exact fun p coloring hand =>
      readsBack_position (readsBack_listed coloring) (readsBack_hand hand)
  case refine_1 =>
    intro L _ _ _ _ g issued small counted each rest
    have sound := issued.valid.sound_snapshot counted
    have few : g.snapshot.locations.length < UInt32.size := by
      rwa [size, Numbering.size_eq_length] at small
    exact ofBytes_eq_ok_iff.2 ⟨g.snapshot, rest, sound.readsBack few each rest, sound,
      issued.valid.arena_snapshot⟩

/-- Two locations, built and classed, are read back in front of two more bytes. -/
theorem two_numbers_read_back : ∃ g : Arena Int64, g.Issued ∧ g.hasClasses ∧
    g.size < UInt32.size ∧ g.moveCount < UInt64.size ∧ ofBytes (g.toBytes ++ [0, 255]) = .ok g := by
  have sound : twoNumbers.Sound := by decide
  have small : twoNumbers.arena.size < UInt32.size := by
    rw [sound.size_arena]
    decide
  obtain ⟨initial, -, built⟩ := sound.valid.build_eq small.le
  have issued : twoNumbers.arena.Issued :=
    .observed (.built built) (sound.valid.observe_eq small.le rfl)
  exact ⟨_, issued, rfl, small, by decide, ofBytes_toBytes.1 issued small (by decide)
    (fun n _ => readsBack_int64 n) [0, 255]⟩

end Arena

end RingLock
