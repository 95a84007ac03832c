import Mathlib.Tactic.MkIffOfInductiveProp
import RingLock.Arena.Snapshot
import RingLock.Proofs.Arena.Numbering
import RingLock.Proofs.Arena.Table
import RingLock.Proofs.Encoding.Canonical

/-!
# Sound snapshots

A snapshot is sound if it describes an arena: nothing is listed twice, the initial location and all
successors are locations, every location has a list for every action, the lists increase, and their
entries and the classes are as many as they should be. Exactly the sound snapshots are restored, and
what is restored shows the snapshot again.
-/
namespace RingLock

variable {L : Type}

namespace Snapshot

open SuccessorTable

@[mk_iff]
structure Sound (s : Snapshot L) : Prop where
  locations : s.locations.Nodup
  actions : s.actions.Nodup
  initial : s.initial.index < s.locations.length
  rows : s.successors.length = s.locations.length
  columns : ∀ row ∈ s.successors, row.length = s.actions.length
  targets : ∀ row ∈ s.successors, ∀ ids ∈ row,
    (∀ id ∈ ids, id.index < s.locations.length) ∧ Increasing ids
  moveCount : s.entryCount = s.moveCount.toNat
  classes : ∀ classes ∈ s.classes, classes.length = s.locations.length

instance [DecidableEq L] (s : Snapshot L) : Decidable s.Sound :=
  decidable_of_iff _ (sound_iff s).symm

theorem require_eq_ok {condition : Bool} {fault : Fault} {u : Unit} :
    require condition fault = .ok u ↔ condition := by
  cases condition <;> simp [require]

theorem increases_iff {ids : List LocId} : increases ids ↔ Increasing ids := by
  induction ids using increases.induct with
  | case1 a b rest ih =>
    rw [increases, Bool.and_eq_true, decide_eq_true_eq, ih, UInt32.lt_iff_toNat_lt]
    constructor
    · rintro ⟨first, later⟩
      apply List.Pairwise.cons _ later
      intro id member
      rcases List.mem_cons.1 member with rfl | after
      · exact first
      · exact Nat.lt_trans first ((List.pairwise_cons.1 later).1 id after)
    · intro h
      exact ⟨(List.pairwise_cons.1 h).1 b List.mem_cons_self, h.tail⟩
  | case2 ids plain =>
    match ids with
    | [] => simp [increases, Increasing]
    | [id] => simp [increases, Increasing]
    | a :: b :: rest => exact absurd rfl (plain a b rest)

theorem fits_iff {s : Snapshot L} : s.fits ↔ s.successors.length = s.locations.length ∧
    ∀ row ∈ s.successors, row.length = s.actions.length := by
  simp [fits]

theorem covers_iff {s : Snapshot L} :
    s.covers ↔ ∀ classes ∈ s.classes, classes.length = s.locations.length := by
  cases found : s.classes <;> simp [covers, found]

theorem checkTargets_eq_ok [Inspect L] {size : ℕ} {source : L} {action : Action}
    {targets : List LocId} : checkTargets size source action targets = .ok () ↔
      (∀ id ∈ targets, id.index < size) ∧ Increasing targets := by
  rw [← increases_iff, checkTargets]
  split
  case h_1 id found =>
    have outside := List.find?_some found
    have member := List.mem_of_find?_eq_some found
    simp only [decide_eq_true_eq] at outside
    simp only [reduceCtorEq, false_iff, not_and]
    exact fun inside => absurd (inside id member) (Nat.not_lt.2 outside)
  case h_2 none_outside =>
    have inside : ∀ id ∈ targets, id.index < size := by simpa using none_outside
    rw [Traversal.provided_eq_ok]
    exact ⟨fun h => ⟨inside, h.1⟩, fun h => ⟨h.2, rfl⟩⟩

/-- With a row for each location and a list for each action, every list is checked. -/
theorem checkLists_eq_ok [Inspect L] {s : Snapshot L}
    (rows : s.successors.length = s.locations.length)
    (columns : ∀ row ∈ s.successors, row.length = s.actions.length) :
    s.checkLists = .ok () ↔ ∀ row ∈ s.successors, ∀ ids ∈ row,
      (∀ id ∈ ids, id.index < s.locations.length) ∧ Increasing ids := by
  unfold checkLists
  apply Traversal.forM_zip_eq_ok (Nat.le_of_eq rows)
  intro source row member
  apply Traversal.forM_zip_eq_ok (Nat.le_of_eq (columns row member))
  intro action targets _
  exact checkTargets_eq_ok

variable [DecidableEq L] [Hashable L]

/-- What a sound snapshot is restored to. -/
def arena (s : Snapshot L) : Arena L where
  locations := .ofList s.locations
  initial := s.initial
  actions := .ofList s.actions
  successors := (s.successors.map List.toArray).toArray
  moveCount := s.entryCount
  classes := s.classes.map List.toArray

/-- Exactly the sound snapshots are restored. -/
theorem ofSnapshot_eq_ok_iff [Inspect L] {s : Snapshot L} {g : Arena L} :
    Arena.ofSnapshot s = .ok g ↔ s.Sound ∧ s.arena = g := by
  simp only [Arena.ofSnapshot, Traversal.bind_eq_ok, require_eq_ok, beq_iff_eq, decide_eq_true_eq,
    Numbering.size_ofList_eq_iff]
  constructor
  · rintro ⟨-, locations, -, actions, -, initial, -, fits, ⟨⟩, lists, -, moveCount, -, covers, hg⟩
    obtain ⟨rows, columns⟩ := fits_iff.1 fits
    have targets := (checkLists_eq_ok rows columns).1 lists
    exact ⟨⟨locations, actions, initial, rows, columns, targets, moveCount, covers_iff.1 covers⟩,
      Except.ok.inj hg⟩
  · rintro ⟨h, rfl⟩
    exact ⟨(), h.locations, (), h.actions, (), h.initial, (), fits_iff.2 ⟨h.rows, h.columns⟩, (),
      (checkLists_eq_ok h.rows h.columns).2 h.targets, (), h.moveCount, (), covers_iff.2 h.classes,
      rfl⟩

open Binary in
instance [Binary L] [Canonical L] : Canonical (Snapshot L) where
  own_form h := by
    obtain ⟨locations, _, first, h⟩ := run_bind_eq_ok.1 h
    obtain ⟨initial, _, second, h⟩ := run_bind_eq_ok.1 h
    obtain ⟨actions, _, third, h⟩ := run_bind_eq_ok.1 h
    obtain ⟨successors, _, fourth, h⟩ := run_bind_eq_ok.1 h
    obtain ⟨moveCount, _, fifth, h⟩ := run_bind_eq_ok.1 h
    obtain ⟨classes, _, sixth, h⟩ := run_bind_eq_ok.1 h
    obtain ⟨rfl, rfl⟩ := run_pure_eq_ok.1 h
    change _ = (encode locations ++ encode initial ++ encode actions ++ encode successors ++
      encode moveCount ++ encode classes) ++ _
    rw [Canonical.own_form first, Canonical.own_form second, Canonical.own_form third,
      Canonical.own_form fourth, Canonical.own_form fifth, Canonical.own_form sixth]
    simp only [List.append_assoc]

open Binary in
instance [Binary L] [Answering L] : Answering (Snapshot L) where
  answers := by
    iterate 6 refine Answering.answers.bind fun _ => ?_
    exact answers_pure _

namespace Sound

variable {s : Snapshot L}

theorem size_arena (h : s.Sound) : s.arena.size = s.locations.length :=
  Numbering.size_ofList h.locations

theorem sized_arena (h : s.Sound) :
    s.arena.successors.Sized s.arena.size s.arena.actions.size where
  rows := by
    rw [h.size_arena, ← h.rows]
    simp [arena]
  columns row member := by
    have listed : ∃ old ∈ s.successors, old.toArray = row := by simpa [arena] using member
    obtain ⟨old, present, rfl⟩ := listed
    rw [List.size_toArray, h.columns old present]
    exact (Numbering.size_ofList h.actions).symm

theorem cell?_arena (h : s.Sound) {source action : ℕ} {ids : List LocId}
    (found : s.arena.successors.cell? source action = some ids) :
    (∀ id ∈ ids, id.index < s.arena.size) ∧ Increasing ids := by
  rw [arena, cell?_toArray, Option.bind_eq_some_iff] at found
  obtain ⟨row, inTable, inRow⟩ := found
  rw [h.size_arena]
  exact h.targets row (List.mem_of_getElem? inTable) ids (List.mem_of_getElem? inRow)

/-- What is restored shows the snapshot again. -/
theorem snapshot_arena (h : s.Sound) : s.arena.snapshot = s := by
  have successors : ((s.successors.map List.toArray).toArray.map Array.toList).toList =
      s.successors := by simp [Function.comp_def]
  have moveCount : UInt64.ofNat s.entryCount = s.moveCount := by
    rw [h.moveCount, UInt64.ofNat_toNat]
  have classes : (s.classes.map List.toArray).map Array.toList = s.classes := by
    simp [Function.comp_def]
  unfold Arena.snapshot arena
  rw [Numbering.toList_ofList h.locations, Numbering.toList_ofList h.actions, successors, moveCount,
    classes]

end Sound

end Snapshot

end RingLock
