import Mathlib.Data.List.Basic
import RingLock.Arena.Basic

/-!
# Successor tables

A table is read one list at a time. Noting a move puts its target into the list of its source and
action and touches no other list. So the table of a list of moves holds those moves and nothing
else, with one row for each location and one list for each action. Every list increases, so a table
is determined by its size and by what its lists hold.
-/
namespace RingLock.SuccessorTable

/-- The list of a location and an action, by number. -/
def cell? (table : SuccessorTable) (source action : ℕ) : Option (List LocId) :=
  table[source]?.bind (·[action]?)

/-- One row for each location, one list for each action. -/
structure Sized (table : SuccessorTable) (locations actions : ℕ) : Prop where
  rows : table.size = locations
  columns : ∀ row ∈ table, row.size = actions

theorem Sized.cell?_isSome {table : SuccessorTable} {locations actions : ℕ}
    (h : table.Sized locations actions) (source action : ℕ) :
    (table.cell? source action).isSome ↔ source < locations ∧ action < actions := by
  by_cases inside : source < table.size
  · have column := h.columns table[source] (Array.getElem_mem inside)
    simp [cell?, inside, column, ← h.rows]
  · simp [cell?, ← h.rows, inside]

theorem exists_cell? {table : SuccessorTable} {row : Array (List LocId)}
    {ids : List LocId} (inTable : row ∈ table) (inRow : ids ∈ row) :
    ∃ source action, table.cell? source action = some ids := by
  obtain ⟨source, hs⟩ := Array.mem_iff_getElem?.1 inTable
  obtain ⟨action, ha⟩ := Array.mem_iff_getElem?.1 inRow
  exact ⟨source, action, by rw [cell?, hs]; exact ha⟩

theorem sized_blank (locations actions : ℕ) :
    (blank locations actions).Sized locations actions where
  rows := by simp [blank]
  columns row member := by simp_all [blank]

theorem Sized.note {table : SuccessorTable} {locations actions : ℕ}
    (h : table.Sized locations actions) (source action : ℕ) (target : LocId) :
    (table.note source action target).Sized locations actions where
  rows := by simp [SuccessorTable.note, h.rows]
  columns row member := by
    obtain ⟨i, hi, rfl⟩ := Array.mem_iff_getElem.1 member
    have inside : i < Array.size table := by simpa [SuccessorTable.note] using hi
    have old := h.columns table[i] (Array.getElem_mem inside)
    simp only [SuccessorTable.note, Array.getElem_modify]
    split <;> simpa using old

theorem cell?_blank {locations actions source action : ℕ} (hs : source < locations)
    (ha : action < actions) : (blank locations actions).cell? source action = some [] := by
  simp [cell?, blank, hs, ha]

theorem cell?_note (table : SuccessorTable) (source action : ℕ) (target : LocId) (s a : ℕ) :
    (table.note source action target).cell? s a =
      (table.cell? s a).map fun ids => if source = s ∧ action = a then target :: ids else ids := by
  simp only [cell?, note, Array.getElem?_modify]
  by_cases hs : source = s
  · cases table[s]? with
    | none => simp
    | some row =>
      by_cases ha : action = a
      · simp [hs, ha, Array.getElem?_modify]
      · simp [hs, ha, Array.getElem?_modify]
  · simp [hs]

theorem cell?_map (table : SuccessorTable) (f : List LocId → List LocId) (source action : ℕ) :
    cell? (Array.map (fun row => row.map f) table) source action =
      (table.cell? source action).map f := by
  simp only [cell?, Array.getElem?_map]
  cases table[source]? with
  | none => rfl
  | some row => simp

theorem cell?_toArray (lists : List (List (List LocId))) (source action : ℕ) :
    cell? (lists.map List.toArray).toArray source action =
      lists[source]?.bind (·[action]?) := by
  simp only [cell?, List.getElem?_toArray, List.getElem?_map]
  cases lists[source]? <;> simp

/-- What the list of a source and an action gains from some moves, the last one first. -/
def gained (moves : List (ℕ × ℕ × LocId)) (source action : ℕ) : List LocId :=
  ((moves.filter fun m => m.1 = source ∧ m.2.1 = action).map (·.2.2)).reverse

@[simp] theorem mem_gained {moves : List (ℕ × ℕ × LocId)} {source action : ℕ} {target : LocId} :
    target ∈ gained moves source action ↔ (source, action, target) ∈ moves := by
  simp only [gained, List.mem_reverse, List.mem_map, List.mem_filter, decide_eq_true_eq]
  constructor
  · rintro ⟨m, ⟨member, rfl, rfl⟩, rfl⟩
    exact member
  · intro member
    exact ⟨_, ⟨member, rfl, rfl⟩, rfl⟩

theorem cell?_foldl_note (moves : List (ℕ × ℕ × LocId)) (table : SuccessorTable)
    (source action : ℕ) :
    (moves.foldl (fun table m => table.note m.1 m.2.1 m.2.2) table).cell? source action =
      (table.cell? source action).map (gained moves source action ++ ·) := by
  induction moves generalizing table with
  | nil => simp [gained]
  | cons m moves ih =>
    rw [List.foldl_cons, ih, cell?_note, Option.map_map]
    congr 1
    funext ids
    by_cases here : m.1 = source ∧ m.2.1 = action
    · simp [gained, here]
    · simp [gained, here]

theorem Sized.foldl_note {table : SuccessorTable} {locations actions : ℕ}
    (h : table.Sized locations actions) (moves : List (ℕ × ℕ × LocId)) :
    (moves.foldl (fun table m => table.note m.1 m.2.1 m.2.2) table).Sized locations actions := by
  induction moves generalizing table with
  | nil => exact h
  | cons m moves ih => exact ih (h.note m.1 m.2.1 m.2.2)

theorem mem_dropRepeats {ids : List LocId} {id : LocId} : id ∈ dropRepeats ids ↔ id ∈ ids := by
  induction ids using dropRepeats.induct with
  | case1 b rest ih => rw [dropRepeats, if_pos rfl, ih]; simp
  | case2 a b rest distinct ih => rw [dropRepeats, if_neg distinct]; simp [ih]
  | case3 short _ => rw [dropRepeats]; assumption

/-- Tidying neither loses nor invents an id. -/
@[simp] theorem mem_tidy {ids : List LocId} {id : LocId} : id ∈ tidy ids ↔ id ∈ ids := by
  rw [tidy, mem_dropRepeats, List.mem_mergeSort]

theorem sized_ofMoves (locations actions : ℕ) (moves : List (ℕ × ℕ × LocId)) :
    (ofMoves locations actions moves).Sized locations actions := by
  have noted := (sized_blank locations actions).foldl_note moves
  constructor
  · simp [ofMoves, noted.rows]
  · intro row member
    obtain ⟨old, present, rfl⟩ := Array.mem_map.1 member
    simpa using noted.columns old present

theorem cell?_ofMoves {locations actions source action : ℕ} (hs : source < locations)
    (ha : action < actions) (moves : List (ℕ × ℕ × LocId)) :
    (ofMoves locations actions moves).cell? source action =
      some (tidy (gained moves source action)) := by
  rw [ofMoves, cell?_map, cell?_foldl_note, cell?_blank hs ha]
  simp

/-- The ids become larger from each to the next. -/
def Increasing (ids : List LocId) : Prop := ids.Pairwise fun a b => a.index < b.index

instance (ids : List LocId) : Decidable (Increasing ids) :=
  inferInstanceAs (Decidable (ids.Pairwise _))

/-- Increasing lists with the same members are equal. -/
theorem Increasing.eq_of_mem_iff {xs ys : List LocId} (hx : Increasing xs) (hy : Increasing ys)
    (same : ∀ id, id ∈ xs ↔ id ∈ ys) : xs = ys := by
  have perm : xs.Perm ys := by
    apply (List.perm_ext_iff_of_nodup _ _).2 same
    · exact hx.imp fun less equal => absurd (congrArg LocId.index equal) (Nat.ne_of_lt less)
    · exact hy.imp fun less equal => absurd (congrArg LocId.index equal) (Nat.ne_of_lt less)
  exact perm.eq_of_pairwise (fun a b _ _ less more => absurd less (Nat.lt_asymm more)) hx hy

theorem increasing_dropRepeats {ids : List LocId} (h : ids.Pairwise fun a b => a.index ≤ b.index) :
    Increasing (dropRepeats ids) := by
  induction ids using dropRepeats.induct with
  | case1 b rest ih =>
    rw [dropRepeats, if_pos rfl]
    exact ih h.tail
  | case2 a b rest distinct ih =>
    rw [dropRepeats, if_neg distinct]
    obtain ⟨first, later⟩ := List.pairwise_cons.1 h
    apply List.Pairwise.cons _ (ih later)
    intro id member
    have below : a.index < b.index := by
      have least := first b List.mem_cons_self
      have apart : a.index ≠ b.index := fun equal =>
        distinct (by rw [← LocId.ofNat_index a, equal, LocId.ofNat_index])
      omega
    rcases List.mem_cons.1 (mem_dropRepeats.1 member) with rfl | after
    · exact below
    · exact Nat.lt_of_lt_of_le below ((List.pairwise_cons.1 later).1 id after)
  | case3 short plain =>
    match short with
    | [] => exact List.Pairwise.nil
    | [id] => exact List.pairwise_singleton ..
    | a :: b :: rest => exact absurd rfl (plain a b rest)

theorem increasing_tidy (ids : List LocId) : Increasing (tidy ids) := by
  apply increasing_dropRepeats
  have transitive : ∀ a b c : LocId, decide (a.number ≤ b.number) → decide (b.number ≤ c.number) →
      decide (a.number ≤ c.number) := by
    simp only [decide_eq_true_eq]
    exact fun a b c => UInt32.le_trans
  have total : ∀ a b : LocId, decide (a.number ≤ b.number) || decide (b.number ≤ a.number) := by
    simp only [Bool.or_eq_true, decide_eq_true_eq]
    exact fun a b => UInt32.le_total a.number b.number
  have sorted := ids.pairwise_mergeSort transitive total
  exact sorted.imp fun least => UInt32.le_iff_toNat_le.1 (of_decide_eq_true least)

/-- Tables of one size with the same lists are equal. -/
theorem Sized.eq_of_cell? {t u : SuccessorTable} {locations actions : ℕ}
    (ht : t.Sized locations actions) (hu : u.Sized locations actions)
    (same : ∀ source action, t.cell? source action = u.cell? source action) : t = u := by
  apply Array.ext (ht.rows.trans hu.rows.symm)
  intro source hs hs'
  have wide := ht.columns t[source] (Array.getElem_mem hs)
  have wide' := hu.columns u[source] (Array.getElem_mem hs')
  apply Array.ext (wide.trans wide'.symm)
  intro action ha ha'
  simpa [cell?, hs, hs', ha, ha'] using same source action

end RingLock.SuccessorTable
