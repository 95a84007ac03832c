import RingLock.Proofs.Safety.Locations

/-!
# The moves of an arena

An arena is asked for a move in two ways: by its two ends and its action, and by listing them all.
Both answer with the successors that the table lists. In an arena built from moves these are the
given ones.
-/
namespace RingLock.Arena

variable {L : Type} [DecidableEq L] [Hashable L]

/-- A move leads from the id of its source to the id of its target. -/
theorem hasMove_iff {g : Arena L} {l m : L} {a : Action} : g.hasMove l a m ↔
    ∃ source target place, g.idOf? l = some source ∧ g.idOf? m = some target ∧
      g.actions.find? a = some place ∧ g.Leads place source target := by
  unfold hasMove
  cases g.idOf? l with
  | none => simp
  | some source =>
    cases g.idOf? m with
    | none => simp
    | some target =>
      unfold successors?
      cases g.actions.find? a with
      | none => simp
      | some place =>
        cases found : g.successorsAt? source place with
        | none => simp [Leads, found]
        | some ids => simp [Leads, found]

/-- The listed moves are the entries of the table. -/
theorem mem_moves {g : Arena L} {l m : L} {a : Action} : (l, a, m) ∈ g.moves ↔
    ∃ i j ids id, g.locations.find? l = some i ∧ g.actions.find? a = some j ∧
      g.successors.cell? i j = some ids ∧ id ∈ ids ∧ g.location? id = some m := by
  simp only [Numbering.find?_eq_some_iff, ← Numbering.getElem?_toList]
  unfold moves
  constructor
  · intro member
    obtain ⟨⟨source, row⟩, inTable, member⟩ := List.mem_flatMap.1 member
    obtain ⟨⟨action, ids⟩, inRow, member⟩ := List.mem_flatMap.1 member
    obtain ⟨target, found, same⟩ := List.mem_map.1 member
    obtain ⟨id, listed, found⟩ := List.mem_filterMap.1 found
    obtain ⟨rfl, rfl, rfl⟩ : source = l ∧ action = a ∧ target = m := by simpa using same
    obtain ⟨i, hl, hrow⟩ := Traversal.mem_zip_iff.1 inTable
    obtain ⟨j, ha, hids⟩ := Traversal.mem_zip_iff.1 inRow
    rw [Array.getElem?_toList] at hrow hids
    exact ⟨i, j, ids, id, hl, ha, by simp [SuccessorTable.cell?, hrow, hids], listed, found⟩
  · rintro ⟨i, j, ids, id, hl, ha, cell, listed, found⟩
    obtain ⟨row, hrow, hids⟩ := Option.bind_eq_some_iff.1 cell
    rw [← Array.getElem?_toList] at hrow hids
    apply List.mem_flatMap.2
    refine ⟨(l, row), Traversal.mem_zip_iff.2 ⟨i, hl, hrow⟩, ?_⟩
    apply List.mem_flatMap.2
    refine ⟨(a, ids), Traversal.mem_zip_iff.2 ⟨j, ha, hids⟩, ?_⟩
    exact List.mem_map.2 ⟨m, List.mem_filterMap.2 ⟨id, listed, found⟩, rfl⟩

/-- The moves that an arena has are the ones that it lists. -/
theorem hasMove_iff_mem_moves {g : Arena L} (small : g.size ≤ UInt32.size) {l m : L} {a : Action} :
    g.hasMove l a m ↔ (l, a, m) ∈ g.moves := by
  rw [hasMove_iff, mem_moves]
  constructor
  · rintro ⟨source, target, place, hl, hm, ha, ids, listed, among⟩
    exact ⟨source.index, place, ids, target, (idOf?_eq_some small).1 hl, ha, listed, among,
      (location?_eq_some small).2 hm⟩
  · rintro ⟨i, place, ids, target, hl, ha, listed, among, hm⟩
    have inside : i < UInt32.size := (Numbering.lt_size_of_find? hl).trans_le small
    refine ⟨.ofNat i, target, place, by simp [idOf?, hl], (location?_eq_some small).1 hm, ha, ids,
      ?_, among⟩
    rwa [successorsAt?_eq, LocId.index_ofNat inside]

/-- A built arena has exactly the given moves. -/
theorem hasMove_iff_mem [Inspect L] {locations : List L} {initial : L} {actions : List Action}
    {moves : List (L × Action × L)} {g : Arena L}
    (h : build locations initial actions moves = .ok g) (small : g.size ≤ UInt32.size) {l m : L}
    {a : Action} : g.hasMove l a m ↔ (l, a, m) ∈ moves := by
  rw [hasMove_iff]
  constructor
  · rintro ⟨source, target, place, hl, hm, ha, leads⟩
    exact (leads_iff_mem h small hl hm ha).1 leads
  · intro member
    obtain ⟨source_listed, action_listed, target_listed⟩ := listed_of_build h member
    obtain ⟨source, hl⟩ := exists_idOf? source_listed
    obtain ⟨place, ha⟩ := Numbering.exists_find? action_listed
    obtain ⟨target, hm⟩ := exists_idOf? target_listed
    exact ⟨source, target, place, hl, hm, ha, (leads_iff_mem h small hl hm ha).2 member⟩

end RingLock.Arena
