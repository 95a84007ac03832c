import RingLock.Proofs.Arena.Snapshot
import RingLock.Proofs.Traversal

/-!
# Well-formed arenas

An arena is well-formed if its table has one row for each location and one list for each action, and
every listed id is the id of a location. Whatever is built from moves or restored from bytes is
well-formed. In a built arena the moves are exactly the given ones.
-/
namespace RingLock

variable {L : Type}

namespace Arena

variable [DecidableEq L] [Hashable L]

structure WellFormed (g : Arena L) : Prop where
  sized : g.successors.Sized g.size g.actions.size
  closed : ∀ {source action : ℕ} {ids : List LocId},
    g.successors.cell? source action = some ids → ∀ id ∈ ids, id.index < g.size

/-- The arenas that a caller can hold: built from moves, restored from bytes, and with classes
attached to them. -/
inductive Issued [Inspect L] : Arena L → Prop
  | built {locations : List L} {initial : L} {actions : List Action} {moves : List (L × Action × L)}
      {g : Arena L} : build locations initial actions moves = .ok g → Issued g
  | restored [Binary L] {bytes : List UInt8} {g : Arena L} : ofBytes bytes = .ok g → Issued g
  | observed {g h : Arena L} {classOf : L → Option ObservationClass} :
      Issued g → g.observe classOf = .ok h → Issued h

/-- An id has another among its successors under the action at a place. -/
def Leads (g : Arena L) (place : ℕ) (source target : LocId) : Prop :=
  ∃ ids, g.successorsAt? source place = some ids ∧ target ∈ ids

theorem successorsAt?_eq (g : Arena L) (id : LocId) (place : ℕ) :
    g.successorsAt? id place = g.successors.cell? id.index place := rfl

theorem WellFormed.index_lt {g : Arena L} (wf : g.WellFormed) {place : ℕ} {source target : LocId}
    (leads : g.Leads place source target) : target.index < g.size := by
  obtain ⟨ids, listed, among⟩ := leads
  exact wf.closed listed target among

variable [Inspect L]

theorem resolve_eq_ok {locations : Numbering L} {actions : Numbering Action} {move : L × Action × L}
    {source place : ℕ} {target : LocId} :
    resolve locations actions move = .ok (source, place, target) ↔
      locations.find? move.1 = some source ∧ actions.find? move.2.1 = some place ∧
        ∃ i, locations.find? move.2.2 = some i ∧ .ofNat i = target := by
  unfold resolve
  cases locations.find? move.1 <;> cases actions.find? move.2.1 <;>
    cases locations.find? move.2.2 <;> simp

theorem exists_resolve {locations : List L} {actions : List Action} {move : L × Action × L}
    (inside : move.1 ∈ locations ∧ move.2.1 ∈ actions ∧ move.2.2 ∈ locations) :
    ∃ numbers, resolve (.ofList locations) (.ofList actions) move = .ok numbers := by
  obtain ⟨source, hs⟩ := Numbering.exists_find? (Numbering.mem_toList_ofList.2 inside.1)
  obtain ⟨place, hp⟩ := Numbering.exists_find? (Numbering.mem_toList_ofList.2 inside.2.1)
  obtain ⟨target, ht⟩ := Numbering.exists_find? (Numbering.mem_toList_ofList.2 inside.2.2)
  exact ⟨(source, place, .ofNat target), resolve_eq_ok.2 ⟨hs, hp, target, ht, rfl⟩⟩

/-- What a successful construction consists of. -/
theorem build_eq_ok {locations : List L} {initial : L} {actions : List Action}
    {moves : List (L × Action × L)} {g : Arena L}
    (h : build locations initial actions moves = .ok g) :
    ∃ first resolved, (Numbering.ofList locations).find? initial = some first ∧
      moves.mapM (resolve (.ofList locations) (.ofList actions)) = .ok resolved ∧
      g.locations = .ofList locations ∧ g.actions = .ofList actions ∧ g.initial = .ofNat first ∧
      g.successors = .ofMoves g.size g.actions.size resolved := by
  unfold build at h
  cases found : (Numbering.ofList locations).find? initial with
  | none => simp [found] at h
  | some first =>
    simp only [found, Traversal.bind_eq_ok] at h
    obtain ⟨resolved, hr, hg⟩ := h
    obtain rfl := Except.ok.inj hg
    exact ⟨first, resolved, rfl, hr, rfl, rfl, rfl, rfl⟩

/-- Nothing is refused whose initial location and moves are listed. -/
theorem exists_build {locations : List L} {initial : L} {actions : List Action}
    {moves : List (L × Action × L)} (listed : initial ∈ locations)
    (inside : ∀ m ∈ moves, m.1 ∈ locations ∧ m.2.1 ∈ actions ∧ m.2.2 ∈ locations) :
    ∃ g, build locations initial actions moves = .ok g := by
  obtain ⟨first, hf⟩ := Numbering.exists_find? (Numbering.mem_toList_ofList.2 listed)
  obtain ⟨resolved, hr⟩ := Traversal.exists_mapM_ok fun m member => exists_resolve (inside m member)
  exact ⟨_, by simp only [build, hf, hr]; rfl⟩

theorem leads_of_build {locations : List L} {initial : L} {actions : List Action}
    {moves : List (L × Action × L)} {g : Arena L}
    (h : build locations initial actions moves = .ok g) (place : ℕ) (source target : LocId) :
    g.Leads place source target ↔ ∃ m ∈ moves, g.locations.find? m.1 = some source.index ∧
      g.actions.find? m.2.1 = some place ∧
        ∃ i, g.locations.find? m.2.2 = some i ∧ .ofNat i = target := by
  obtain ⟨first, resolved, -, hr, hl, ha, -, table⟩ := build_eq_ok h
  have listed : (source.index, place, target) ∈ resolved ↔ g.Leads place source target := by
    by_cases inside : source.index < g.size ∧ place < g.actions.size
    · rw [Leads, successorsAt?_eq, table, SuccessorTable.cell?_ofMoves inside.1 inside.2]
      simp
    · constructor
      · intro member
        obtain ⟨m, -, hm⟩ := (Traversal.mem_mapM_ok hr _).1 member
        obtain ⟨hs, hp, -⟩ := resolve_eq_ok.1 hm
        rw [← hl] at hs
        rw [← ha] at hp
        exact absurd ⟨Numbering.lt_size_of_find? hs, Numbering.lt_size_of_find? hp⟩ inside
      · rintro ⟨ids, hids, -⟩
        have sized := SuccessorTable.sized_ofMoves g.size g.actions.size resolved
        rw [successorsAt?_eq, table] at hids
        exact absurd ((sized.cell?_isSome _ _).1 (by simp [hids])) inside
  rw [← listed, Traversal.mem_mapM_ok hr, hl, ha]
  simp only [resolve_eq_ok]

/-- Both ends and the label of a move of a built arena are listed. -/
theorem listed_of_build {locations : List L} {initial : L} {actions : List Action}
    {moves : List (L × Action × L)} {g : Arena L}
    (h : build locations initial actions moves = .ok g) {m : L × Action × L} (hm : m ∈ moves) :
    m.1 ∈ g.locations.toList ∧ m.2.1 ∈ g.actions.toList ∧ m.2.2 ∈ g.locations.toList := by
  obtain ⟨first, resolved, -, hr, hl, ha, -, -⟩ := build_eq_ok h
  obtain ⟨⟨source, place, target⟩, found⟩ := Traversal.mapM_ok_total hr hm
  obtain ⟨hs, hp, i, ht, -⟩ := resolve_eq_ok.1 found
  rw [hl, ha]
  exact ⟨Numbering.mem_of_find? hs, Numbering.mem_of_find? hp, Numbering.mem_of_find? ht⟩

theorem wellFormed_of_build {locations : List L} {initial : L} {actions : List Action}
    {moves : List (L × Action × L)} {g : Arena L}
    (h : build locations initial actions moves = .ok g) : g.WellFormed := by
  obtain ⟨first, resolved, -, hr, hl, -, -, table⟩ := build_eq_ok h
  have sized : g.successors.Sized g.size g.actions.size := by
    rw [table]
    exact SuccessorTable.sized_ofMoves ..
  refine ⟨sized, ?_⟩
  intro source action ids found id member
  obtain ⟨hs, ha⟩ := (sized.cell?_isSome source action).1 (by simp [found])
  rw [table, SuccessorTable.cell?_ofMoves hs ha, Option.some.injEq] at found
  subst found
  rw [SuccessorTable.mem_tidy, SuccessorTable.mem_gained, Traversal.mem_mapM_ok hr] at member
  obtain ⟨m, -, hm⟩ := member
  obtain ⟨-, -, i, found, rfl⟩ := resolve_eq_ok.1 hm
  rw [← hl] at found
  calc (LocId.ofNat i).index = i % UInt32.size := UInt32.toNat_ofNat'
    _ ≤ i := Nat.mod_le ..
    _ < g.size := Numbering.lt_size_of_find? found

theorem wellFormed_of_snapshot {s : Snapshot L} {g : Arena L} (h : ofSnapshot s = .ok g) :
    g.WellFormed := by
  obtain ⟨sound, rfl⟩ := Snapshot.ofSnapshot_eq_ok_iff.1 h
  exact ⟨sound.sized_arena, fun found => (sound.cell?_arena found).1⟩

theorem Issued.wellFormed {g : Arena L} (h : g.Issued) : g.WellFormed := by
  induction h with
  | built h => exact wellFormed_of_build h
  | @restored _ bytes g h =>
    unfold ofBytes at h
    split at h
    · contradiction
    · exact wellFormed_of_snapshot h
  | observed _ h ih =>
    simp only [observe, Traversal.bind_eq_ok] at h
    obtain ⟨classes, -, h⟩ := h
    obtain rfl := Except.ok.inj h
    exact ⟨ih.sized, ih.closed⟩

end Arena

end RingLock
