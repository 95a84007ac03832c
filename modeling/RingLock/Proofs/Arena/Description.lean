import RingLock.Proofs.Arena.Restored

/-!
# What an arena is built from

A description of an arena lists locations, actions and moves, in any order and with repetitions. It
is refused if the initial location is not listed, and else for the first move that mentions what is
not listed. An arena that is built shows what was described: each location and each action at the
place of its first mention, and each move once. The moves are listed by source, by action and by
target, because the table is read row by row and its lists increase.
-/
namespace RingLock

variable {L : Type}

theorem SuccessorTable.total_eq_sum (ns : List ℕ) : total ns = ns.sum := by
  induction ns with
  | nil => rfl
  | cons n ns ih => rw [total, ih, List.sum_cons]

/-- What pairs give together, where each gives as much as its second item says. -/
theorem SuccessorTable.length_flatMap_zip {α β γ : Type} {xs : List α} {ys : List β}
    (enough : ys.length ≤ xs.length) {f : α × β → List γ} {size : β → ℕ}
    (each : ∀ x, ∀ y ∈ ys, (f (x, y)).length = size y) :
    ((xs.zip ys).flatMap f).length = total (ys.map size) := by
  have lengths : (xs.zip ys).map (fun p => (f p).length) = (xs.zip ys).map (size ∘ Prod.snd) :=
    List.map_congr_left fun p pair => each p.1 p.2 (List.of_mem_zip pair).2
  rw [List.length_flatMap, lengths, ← List.map_map, List.map_snd_zip enough, total_eq_sum]

/-- Dropping later repetitions leaves none. -/
theorem nodup_eraseDups {α : Type} [BEq α] [LawfulBEq α] (xs : List α) : xs.eraseDups.Nodup := by
  induction xs using List.reverseRecOn with
  | nil => simp
  | append_singleton xs x ih =>
    rw [List.eraseDups_append]
    by_cases known : x ∈ xs
    · simpa [List.removeAll, known] using ih
    · have last : ([x].removeAll xs).eraseDups = [x] := by
        simp [List.removeAll, known, List.eraseDups_cons]
      rw [last, List.nodup_append]
      refine ⟨ih, List.nodup_singleton x, ?_⟩
      intro y hy z hz same
      obtain rfl := List.mem_singleton.1 hz
      exact known (List.mem_eraseDups.1 (same ▸ hy))

/-- Numbered items beside other data are compared by their numbers. -/
theorem Numbering.pairwise_zip {α β : Type} [DecidableEq α] [Hashable α] {n : Numbering α}
    {ys : List β} {R : α × β → α × β → Prop}
    (before : ∀ p q i j, n.find? p.1 = some i → n.find? q.1 = some j → i < j → R p q) :
    (n.toList.zip ys).Pairwise R := by
  have place {i : ℕ} (hi : i < (n.toList.zip ys).length) :
      n.find? (n.toList.zip ys)[i].1 = some i := by
    have inside := List.lt_length_left_of_zip hi
    rw [find?_eq_some_iff, ← getElem?_toList, List.getElem_zip]
    exact List.getElem?_eq_getElem inside
  rw [List.pairwise_iff_getElem]
  intro i j hi hj less
  exact before _ _ i j (place hi) (place hj) less

namespace Arena

/-- A move mentions nothing but what is listed. -/
def Inside (locations : List L) (actions : List Action) (m : L × Action × L) : Prop :=
  m.1 ∈ locations ∧ m.2.1 ∈ actions ∧ m.2.2 ∈ locations

instance [DecidableEq L] (locations : List L) (actions : List Action) (m : L × Action × L) :
    Decidable (Inside locations actions m) :=
  inferInstanceAs (Decidable (m.1 ∈ locations ∧ m.2.1 ∈ actions ∧ m.2.2 ∈ locations))

variable [DecidableEq L] [Hashable L]

/-- The numbers of a move: the id of its source, the place of its action and the id of its
target. -/
def Numbered (g : Arena L) (m : L × Action × L) (n : LocId × ℕ × LocId) : Prop :=
  g.idOf? m.1 = some n.1 ∧ g.actions.find? m.2.1 = some n.2.1 ∧ g.idOf? m.2.2 = some n.2.2

/-- A move comes before another by its source, then by its action, then by its target. -/
def Before (g : Arena L) (m n : L × Action × L) : Prop :=
  ∃ p q, g.Numbered m p ∧ g.Numbered n q ∧
    Prod.Lex (·.index < ·.index) (Prod.Lex (· < ·) (·.index < ·.index)) p q

/-- An arena shows a description. -/
structure Shows (g : Arena L) (locations : List L) (initial : L) (actions : List Action)
    (moves : List (L × Action × L)) : Prop where
  locations_eq : g.locations.toList = locations.eraseDups
  actions_eq : g.actions.toList = actions.eraseDups
  initial_eq : g.initialLocation? = some initial
  /-- Ids and locations determine each other. -/
  inverse : ∀ l id, g.idOf? l = some id ↔ g.location? id = some l
  listed : ∀ l, (g.idOf? l).isSome ↔ l ∈ locations
  issued : ∀ id, (g.location? id).isSome ↔ id.index < g.size
  hasMove_iff : ∀ l a m, g.hasMove l a m ↔ (l, a, m) ∈ moves
  /-- There is a successor list for each location and each action, and nowhere else. -/
  lists : ∀ id place, (g.successorsAt? id place).isSome ↔ id.index < g.size ∧ place < g.actions.size
  increasing : ∀ id place ids, g.successorsAt? id place = some ids → SuccessorTable.Increasing ids
  moves_perm : g.moves.Perm moves.eraseDups
  moves_order : g.moves.Pairwise g.Before
  moveCount_eq : g.moveCount = moves.eraseDups.length

theorem Before.ne {g : Arena L} {m n : L × Action × L} (h : g.Before m n) : m ≠ n := by
  rintro rfl
  obtain ⟨p, q, ⟨source, action, target⟩, ⟨source', action', target'⟩, less⟩ := h
  obtain rfl : p = q := by
    apply Prod.ext
    · exact Option.some.inj (source.symm.trans source')
    · apply Prod.ext
      · exact Option.some.inj (action.symm.trans action')
      · exact Option.some.inj (target.symm.trans target')
  simp [Prod.lex_def] at less

/-- The moves that one row of the table lists. -/
def movesFrom (g : Arena L) (source : L) (row : Array (List LocId)) : List (L × Action × L) :=
  (g.actions.toList.zip row.toList).flatMap fun p =>
    (p.2.filterMap g.location?).map fun target => (source, p.1, target)

theorem moves_eq (g : Arena L) : g.moves =
    (g.locations.toList.zip g.successors.toList).flatMap fun p => g.movesFrom p.1 p.2 := rfl

theorem numbered {g : Arena L} (small : g.size ≤ UInt32.size) {l m : L} {a : Action} {i j : ℕ}
    {id : LocId} (hl : g.locations.find? l = some i) (ha : g.actions.find? a = some j)
    (hm : g.location? id = some m) : g.Numbered (l, a, m) (.ofNat i, j, id) :=
  ⟨by rw [idOf?, hl]; rfl, ha, (location?_eq_some small).1 hm⟩

theorem numbered_of_mem_movesFrom {g : Arena L} (small : g.size ≤ UInt32.size) {source : L} {i : ℕ}
    (hl : g.locations.find? source = some i) {row : Array (List LocId)} {m : L × Action × L}
    (member : m ∈ g.movesFrom source row) : ∃ n, g.Numbered m n ∧ n.1.index = i := by
  obtain ⟨⟨a, ids⟩, inRow, member⟩ := List.mem_flatMap.1 member
  obtain ⟨target, found, rfl⟩ := List.mem_map.1 member
  obtain ⟨id, -, found⟩ := List.mem_filterMap.1 found
  obtain ⟨j, ha⟩ := Numbering.exists_find? (List.of_mem_zip inRow).1
  exact ⟨_, numbered small hl ha found,
    LocId.index_ofNat ((Numbering.lt_size_of_find? hl).trans_le small)⟩

/-- The moves of one row are listed by action, then by target. -/
theorem pairwise_movesFrom {g : Arena L} (small : g.size ≤ UInt32.size) {source : L} {i : ℕ}
    (hl : g.locations.find? source = some i) {row : Array (List LocId)}
    (increasing : ∀ ids ∈ row, SuccessorTable.Increasing ids) :
    (g.movesFrom source row).Pairwise g.Before := by
  rw [movesFrom, List.pairwise_flatMap]
  constructor
  case left =>
    rintro ⟨a, ids⟩ inRow
    obtain ⟨action, list⟩ := List.of_mem_zip inRow
    obtain ⟨j, ha⟩ := Numbering.exists_find? action
    rw [List.pairwise_map, List.pairwise_filterMap]
    refine (increasing ids (Array.mem_toList_iff.1 list)).imp fun less t ht u hu => ?_
    exact ⟨_, _, numbered small hl ha ht, numbered small hl ha hu, .right _ (.right _ less)⟩
  case right =>
    apply Numbering.pairwise_zip
    intro p q j k hj hk less x hx y hy
    obtain ⟨t, found, rfl⟩ := List.mem_map.1 hx
    obtain ⟨u, found', rfl⟩ := List.mem_map.1 hy
    obtain ⟨id, -, ht⟩ := List.mem_filterMap.1 found
    obtain ⟨id', -, hu⟩ := List.mem_filterMap.1 found'
    exact ⟨_, _, numbered small hl hj ht, numbered small hl hk hu, .right _ (.left _ _ less)⟩

/-- The moves of an arena are listed by source, then by action, then by target. -/
theorem pairwise_moves {g : Arena L} (small : g.size ≤ UInt32.size)
    (increasing : ∀ row ∈ g.successors, ∀ ids ∈ row, SuccessorTable.Increasing ids) :
    g.moves.Pairwise g.Before := by
  rw [moves_eq, List.pairwise_flatMap]
  constructor
  case left =>
    rintro ⟨l, row⟩ inTable
    obtain ⟨source, listed⟩ := List.of_mem_zip inTable
    obtain ⟨i, hl⟩ := Numbering.exists_find? source
    exact pairwise_movesFrom small hl (increasing row (Array.mem_toList_iff.1 listed))
  case right =>
    apply Numbering.pairwise_zip
    intro p q i j hi hj less x hx y hy
    obtain ⟨n, first, source⟩ := numbered_of_mem_movesFrom small hi hx
    obtain ⟨n', second, source'⟩ := numbered_of_mem_movesFrom small hj hy
    exact ⟨n, n', first, second, .left _ _ (source ▸ source' ▸ less)⟩

theorem length_movesFrom {g : Arena L} {source : L} {row : Array (List LocId)}
    (columns : row.size = g.actions.size) (closed : ∀ ids ∈ row, ∀ id ∈ ids, id.index < g.size) :
    (g.movesFrom source row).length = SuccessorTable.total (row.toList.map List.length) := by
  apply SuccessorTable.length_flatMap_zip
  · rw [Array.length_toList, columns, Numbering.size_eq_length]
  · intro a ids listed
    rw [List.length_map, List.length_filterMap_eq_countP, List.countP_eq_length]
    intro id among
    obtain ⟨l, hl⟩ :=
      Numbering.exists_of_lt_size (closed ids (Array.mem_toList_iff.1 listed) id among)
    simp [location?, (g.locations.find?_eq_some_iff l id.index).1 hl]

/-- Every entry of the table is listed once. -/
theorem length_moves {g : Arena L} (wf : g.WellFormed) : g.moves.length = g.successors.count := by
  rw [moves_eq]
  apply SuccessorTable.length_flatMap_zip
  · rw [Array.length_toList, wf.sized.rows, size, Numbering.size_eq_length]
  · intro source row listed
    have inTable := Array.mem_toList_iff.1 listed
    apply length_movesFrom (wf.sized.columns row inTable)
    intro ids inRow
    obtain ⟨i, j, found⟩ := SuccessorTable.exists_cell? inTable inRow
    exact wf.closed found

section

variable [Inspect L] {locations : List L} {initial : L} {actions : List Action}
  {moves : List (L × Action × L)}

theorem build_of_not_mem (absent : initial ∉ locations) :
    build locations initial actions moves = .error (.initialNotListed (inspect initial)) := by
  have unplaced : (Numbering.ofList locations).find? initial = none :=
    Numbering.find?_eq_none_iff.2 (mt Numbering.mem_toList_ofList.1 absent)
  simp only [build, unplaced]

theorem resolve_of_not_inside {m : L × Action × L} (outside : ¬Inside locations actions m) :
    resolve (.ofList locations) (.ofList actions) m =
      .error (.moveOutside (inspect m.1) (toString m.2.1) (inspect m.2.2)) := by
  have refused (n : ℕ × ℕ × LocId) : resolve (.ofList locations) (.ofList actions) m ≠ .ok n := by
    intro resolved
    obtain ⟨source, action, _, target, -⟩ := resolve_eq_ok.1 resolved
    exact outside ⟨Numbering.mem_toList_ofList.1 (Numbering.mem_of_find? source),
      Numbering.mem_toList_ofList.1 (Numbering.mem_of_find? action),
      Numbering.mem_toList_ofList.1 (Numbering.mem_of_find? target)⟩
  unfold resolve at refused ⊢
  split at *
  · exact absurd rfl (refused _)
  · rfl

/-- The first move that mentions what is not listed is named. -/
theorem build_of_not_inside {before after : List (L × Action × L)} {m : L × Action × L}
    (listed : initial ∈ locations) (passes : ∀ n ∈ before, Inside locations actions n)
    (outside : ¬Inside locations actions m) :
    build locations initial actions (before ++ m :: after) =
      .error (.moveOutside (inspect m.1) (toString m.2.1) (inspect m.2.2)) := by
  obtain ⟨first, placed⟩ := Numbering.exists_find? (Numbering.mem_toList_ofList.2 listed)
  have refused := Traversal.mapM_eq_error (fun n member => exists_resolve (passes n member))
    (resolve_of_not_inside outside) after
  simp only [build, placed, refused]
  rfl

theorem size_of_build {g : Arena L} (h : build locations initial actions moves = .ok g) :
    g.size = locations.eraseDups.length := by
  obtain ⟨-, -, -, -, hl, -, -, -⟩ := build_eq_ok h
  rw [size, hl, Numbering.size_ofList_eq_length_eraseDups]

theorem initialLocation?_of_build {g : Arena L}
    (h : build locations initial actions moves = .ok g) (small : g.size ≤ UInt32.size) :
    g.initialLocation? = some initial := by
  obtain ⟨first, -, placed, -, hl, -, hi, -⟩ := build_eq_ok h
  refine (location?_eq_some small).2 ?_
  rw [idOf?, hl, placed, hi]
  rfl

theorem shows_of_build {g : Arena L} (h : build locations initial actions moves = .ok g)
    (small : g.size ≤ UInt32.size) : g.Shows locations initial actions moves := by
  obtain ⟨-, -, -, -, hl, ha, -, -⟩ := build_eq_ok h
  have wf := wellFormed_of_build h
  have order : g.moves.Pairwise g.Before := by
    apply pairwise_moves small
    intro row inTable ids inRow
    obtain ⟨i, j, found⟩ := SuccessorTable.exists_cell? inTable inRow
    exact increasing_of_build h found
  have perm : g.moves.Perm moves.eraseDups := by
    refine (List.perm_ext_iff_of_nodup (order.imp Before.ne) (nodup_eraseDups moves)).2 fun m => ?_
    rw [List.mem_eraseDups]
    exact (hasMove_iff_mem_moves small).symm.trans (hasMove_iff_mem h small)
  constructor
  case locations_eq => rw [hl, Numbering.toList_ofList_eq_eraseDups]
  case actions_eq => rw [ha, Numbering.toList_ofList_eq_eraseDups]
  case initial_eq => exact initialLocation?_of_build h small
  case inverse => exact fun l id => (location?_eq_some small).symm
  case listed =>
    intro l
    rw [idOf?, Option.isSome_map, Numbering.find?_isSome_iff, mem_locations_of_build h]
  case issued =>
    intro id
    simp [location?, Numbering.get?, size, Numbering.size]
  case hasMove_iff => exact fun l a m => hasMove_iff_mem h small
  case lists => exact fun id place => wf.sized.cell?_isSome id.index place
  case increasing => exact fun id place ids found => increasing_of_build h found
  case moves_perm => exact perm
  case moves_order => exact order
  case moveCount_eq => rw [(totals_of_build h).1, ← length_moves wf, perm.length_eq]

/-- Building comes to what the description deserves. Without its initial location it is refused for
that, and else for the first move that mentions what is not listed, if there is one. Otherwise the
arena shows it. -/
theorem build_decided (locations : List L) (initial : L) (actions : List Action)
    (moves : List (L × Action × L)) (few : locations.eraseDups.length ≤ UInt32.size) :
    (initial ∉ locations → build locations initial actions moves =
      .error (.initialNotListed (inspect initial))) ∧
    (∀ before m after, moves = before ++ m :: after → initial ∈ locations →
      (∀ n ∈ before, Inside locations actions n) → ¬Inside locations actions m →
        build locations initial actions moves =
          .error (.moveOutside (inspect m.1) (toString m.2.1) (inspect m.2.2))) ∧
    (initial ∈ locations → (∀ m ∈ moves, Inside locations actions m) →
      ∃ g, build locations initial actions moves = .ok g ∧
        g.Shows locations initial actions moves) := by
  refine ⟨build_of_not_mem, ?_, ?_⟩
  · rintro before m after rfl listed passes outside
    exact build_of_not_inside listed passes outside
  · intro listed inside
    obtain ⟨g, built⟩ := exists_build listed inside
    exact ⟨g, built, shows_of_build built ((size_of_build built).trans_le few)⟩

end

/-- A description with repetitions, and two that are refused. -/
theorem build_of_repetitions :
    (∃ g : Arena UInt8, build [5, 3, 5] 3 [⟨1⟩, ⟨0⟩, ⟨1⟩]
        [(3, ⟨1⟩, 5), (5, ⟨0⟩, 5), (3, ⟨1⟩, 5)] = .ok g ∧ g.locations.toList = [5, 3] ∧
      g.actions.toList = [⟨1⟩, ⟨0⟩] ∧ g.moves.Perm [(3, ⟨1⟩, 5), (5, ⟨0⟩, 5)] ∧
      g.moveCount = 2) ∧
    build [5, 3, 5] 4 [⟨1⟩] [((9 : UInt8), ⟨1⟩, 5)] = .error (.initialNotListed "4") ∧
    build [5, 3, 5] 3 [⟨1⟩] [((3 : UInt8), ⟨1⟩, 5), (5, ⟨2⟩, 3), (9, ⟨1⟩, 3)] =
      .error (.moveOutside "5" "2" "3") := by
  have few : ([5, 3, 5] : List UInt8).eraseDups.length ≤ UInt32.size := by decide
  refine ⟨?_, ?_, ?_⟩
  · obtain ⟨g, built, shows⟩ := (build_decided [5, 3, 5] 3 [⟨1⟩, ⟨0⟩, ⟨1⟩]
      [((3 : UInt8), ⟨1⟩, 5), (5, ⟨0⟩, 5), (3, ⟨1⟩, 5)] few).2.2 (by decide) (by decide)
    exact ⟨g, built, shows.locations_eq, shows.actions_eq, shows.moves_perm, shows.moveCount_eq⟩
  · exact (build_decided [5, 3, 5] 4 [⟨1⟩] [((9 : UInt8), ⟨1⟩, 5)] few).1 (by decide)
  · exact (build_decided [5, 3, 5] 3 [⟨1⟩] [((3 : UInt8), ⟨1⟩, 5), (5, ⟨2⟩, 3), (9, ⟨1⟩, 3)]
      few).2.1 [(3, ⟨1⟩, 5)] (5, ⟨2⟩, 3) [(9, ⟨1⟩, 3)] rfl (by decide) (by decide) (by decide)

end Arena

end RingLock
