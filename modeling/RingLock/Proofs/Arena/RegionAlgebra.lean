import RingLock.Proofs.Arena.RegionEdits

/-!
# The algebra of regions

A recipe makes a region from scratch, adds and removes single ids, and combines regions of any
bounds. It stands for a bound and for a set of ids below it. No recipe fails, and what it makes is
its set below its bound, with the right number of members. So the operations on regions are those on
finite sets.
-/
namespace RingLock

/-- The ids below a bound. -/
def LocId.below (bound : ℕ) : Set LocId := {id | id.index < bound}

@[simp] theorem LocId.mem_below {bound : ℕ} {id : LocId} : id ∈ below bound ↔ id.index < bound :=
  Iff.rfl

namespace Region

/-- How a region is made. -/
inductive Recipe where
  | empty (bound : UInt32)
  | full (bound : UInt32)
  | ofFn (bound : UInt32) (p : LocId → Bool)
  | ofIds (bound : UInt32) (ids : List LocId)
  | insert (e : Recipe) (id : LocId)
  | erase (e : Recipe) (id : LocId)
  | inter (e f : Recipe)
  | union (e f : Recipe)
  | complement (e : Recipe)

namespace Recipe

/-- Follows a recipe, one operation after the other. -/
def make? : Recipe → Option Region
  | empty bound => Region.empty? bound.toNat
  | full bound => Region.full? bound.toNat
  | ofFn bound p => some (Region.ofFn bound.toNat p)
  | ofIds bound ids => Region.ofIds? bound.toNat ids
  | insert e id => e.make?.bind fun r => (r.insert? id).map Prod.fst
  | erase e id => e.make?.bind fun r => (r.erase? id).map Prod.fst
  | inter e f => e.make?.bind fun r => f.make?.map r.inter
  | union e f => e.make?.bind fun r => f.make?.map r.union
  | complement e => e.make?.map Region.complement

/-- The bound that a recipe leads to. -/
def bound : Recipe → ℕ
  | empty bound | full bound | ofFn bound _ | ofIds bound _ => bound.toNat
  | insert e _ | erase e _ | inter e _ | complement e => e.bound
  | union e f => max e.bound f.bound

/-- The set that a recipe stands for. -/
def ids : Recipe → Set LocId
  | empty _ => ∅
  | full bound => LocId.below bound.toNat
  | ofFn bound p => LocId.below bound.toNat ∩ {id | p id}
  | ofIds bound ids => LocId.below bound.toNat ∩ {id | id ∈ ids}
  | insert e id => e.ids ∪ ({id} ∩ LocId.below e.bound)
  | erase e id => e.ids \ {id}
  | inter e f => e.ids ∩ f.ids
  | union e f => e.ids ∪ f.ids
  | complement e => LocId.below e.bound \ e.ids

end Recipe

/-- A region that is a set of ids below a bound, and knows how many they are. -/
structure Represents (r : Region) (bound : ℕ) (s : Set LocId) : Prop where
  small : bound < UInt32.size
  bound_eq : r.bound = bound
  ids_eq : r.ids = s
  counted : r.Counted

variable {r r' : Region} {bound bound' : ℕ} {s s' : Set LocId} {e : Edit}

section Represents

/-- A predicate on the ids below a bound that picks the members of a set. -/
theorem represents_ofFn (small : bound < UInt32.size) {p : LocId → Bool}
    (picks : ∀ id, id ∈ s ↔ id.index < bound ∧ p id) : (ofFn bound p).Represents bound s where
  small := small
  bound_eq := (bound_ofFn bound p).trans (Nat.mod_eq_of_lt small)
  ids_eq := by
    ext id
    rw [mem_ids, contains_ofFn small, Bool.and_eq_true, decide_eq_true_eq, picks]
  counted := counted_ofFn bound p

/-- Flags that are all alike need no predicate. -/
theorem allocate?_eq_ofFn (small : bound < UInt32.size) (flag : Bool) :
    allocate? bound flag (UInt64.ofNat (if flag then bound else 0)) =
      some (ofFn bound fun _ => flag) := by
  have fits : bound < capacity := small.trans (by decide)
  have flags : Array.ofFn (fun _ : Fin (bound % UInt32.size) => flag) =
      Array.replicate bound flag := by
    rw [Nat.mod_eq_of_lt small]
    apply Array.ext <;> simp
  rw [allocate?, if_pos fits, ofFn, ofMembers, flags, Array.count_replicate]
  simp

theorem exists_empty? (small : bound < UInt32.size) :
    ∃ r, empty? bound = some r ∧ r.Represents bound ∅ :=
  ⟨_, allocate?_eq_ofFn small false, represents_ofFn small (by simp)⟩

theorem exists_full? (small : bound < UInt32.size) :
    ∃ r, full? bound = some r ∧ r.Represents bound (LocId.below bound) :=
  ⟨_, allocate?_eq_ofFn small true, represents_ofFn small (by simp)⟩

theorem Represents.contains_iff (h : r.Represents bound s) (id : LocId) :
    r.contains id ↔ id ∈ s := by
  rw [← h.ids_eq]
  rfl

theorem Represents.index_lt (h : r.Represents bound s) (id : LocId) (member : id ∈ s) :
    id.index < bound :=
  (index_lt_bound ((h.contains_iff id).2 member)).trans_eq h.bound_eq

theorem Represents.bound_lt (h : r.Represents bound s) : r.bound < UInt32.size :=
  h.bound_eq ▸ h.small

/-- Two regions are equal as soon as they have one bound and one set. -/
theorem Represents.eq_iff (h : r.Represents bound s) (h' : r'.Represents bound' s') :
    r = r' ↔ bound = bound' ∧ s = s' := by
  constructor
  · rintro rfl
    exact ⟨h.bound_eq.symm.trans h'.bound_eq, h.ids_eq.symm.trans h'.ids_eq⟩
  · rintro ⟨rfl, rfl⟩
    exact eq_of_ids_eq (h.bound_eq.trans h'.bound_eq.symm) h.bound_lt.le
      (h.ids_eq.trans h'.ids_eq.symm) h.counted h'.counted

theorem Represents.isSubset_iff (h : r.Represents bound s) (h' : r'.Represents bound' s') :
    r.isSubset r' ↔ s ⊆ s' := by
  simp only [isSubset, List.all_eq_true, mem_toList h.bound_lt.le, h.contains_iff, h'.contains_iff]
  rfl

theorem Represents.inter (h : r.Represents bound s) (h' : r'.Represents bound' s') :
    (r.inter r').Represents bound (s ∩ s') := by
  rw [Region.inter, h.bound_eq]
  refine represents_ofFn h.small fun id => ?_
  have inside := h.index_lt id
  rw [Set.mem_inter_iff, Bool.and_eq_true, h.contains_iff, h'.contains_iff]
  tauto

theorem Represents.union (h : r.Represents bound s) (h' : r'.Represents bound' s') :
    (r.union r').Represents (max bound bound') (s ∪ s') := by
  rw [Region.union, h.bound_eq, h'.bound_eq]
  refine represents_ofFn (max_lt h.small h'.small) fun id => ?_
  have left := h.index_lt id
  have right := h'.index_lt id
  rw [Set.mem_union, Bool.or_eq_true, h.contains_iff, h'.contains_iff, lt_max_iff]
  tauto

theorem Represents.complement (h : r.Represents bound s) :
    r.complement.Represents bound (LocId.below bound \ s) := by
  rw [Region.complement, h.bound_eq]
  refine represents_ofFn h.small fun id => ?_
  simp [← h.contains_iff]

/-- The members are listed once each, in increasing order. -/
theorem pairwise_toList (small : r.bound ≤ UInt32.size) :
    r.toList.Pairwise fun a b => a.index < b.index := by
  refine List.pairwise_map.2 ((List.pairwise_lt_range.filter _).imp_of_mem ?_)
  intro i j hi hj less
  have below {k : ℕ} (hk : k ∈ (List.range r.bound).filter fun i => r.members[i]?.getD false) :
      (LocId.ofNat k).index = k := by
    have := List.mem_range.1 (List.mem_filter.1 hk).1
    exact LocId.index_ofNat (by omega)
  rwa [below hi, below hj]

end Represents

section Edits

/-- Adds the id, or removes it, and tells whether anything has changed. -/
def tell? (r : Region) (e : Edit) : Option (Region × Bool) :=
  if e.adds then r.insert? e.id else r.erase? e.id

/-- What an edit makes of a set. -/
def Edit.on (e : Edit) (bound : ℕ) (s : Set LocId) : Set LocId :=
  if e.adds then s ∪ ({e.id} ∩ LocId.below bound) else s \ {e.id}

theorem told_iff {t : Region} {told : Bool} (h : r.tell? e = some (t, told)) :
    told ↔ r.members[e.id.index]? = some !e.adds := by
  obtain ⟨id, adds⟩ := e
  cases adds with
  | true =>
    change r.insert? id = _ at h
    rw [insert?] at h
    split at h <;> simp_all
  | false =>
    change r.erase? id = _ at h
    rw [erase?] at h
    split at h <;> simp_all

theorem getElem?_eq_some_iff {id : LocId} {flag : Bool} :
    r.members[id.index]? = some flag ↔ id.index < r.bound ∧ r.contains id = flag := by
  by_cases inside : id.index < r.members.size
  · simp [contains, bound, inside]
  · simp [bound, inside]

/-- What is in a region one of whose flags was written. -/
theorem contains_of_written {t : Region} {i : LocId} {flag : Bool}
    (written : t.members = r.members.setIfInBounds i.index flag) (id : LocId) :
    t.contains id = if id = i ∧ i.index < r.bound then flag else r.contains id := by
  rw [contains, written, Array.getElem?_setIfInBounds]
  have same : i.index = id.index ↔ id = i :=
    ⟨fun h => by rw [← id.ofNat_index, ← h, i.ofNat_index], fun h => h ▸ rfl⟩
  by_cases here : id = i
  · subst here
    by_cases inside : id.index < r.members.size
    · simp [bound, inside]
    · simp [bound, contains, inside]
  · simp [contains, same, here]

theorem counted_iff_held (small : r.bound ≤ UInt32.size) : r.Counted ↔ r.size = r.held := by
  rw [Counted, ncard_ids small, held_eq_length]

/-- A region with the right number has room for every edit. -/
theorem Represents.balanced (h : r.Represents bound s) : r.Balanced := by
  have right := (counted_iff_held h.bound_lt.le).1 h.counted
  have := r.held_le_bound
  have := h.bound_lt
  exact ⟨by omega, by simp only [UInt64.size, UInt32.size] at *; omega⟩

/-- The flag that an edit writes is the edit of the set. -/
theorem Represents.ids_of_written (h : r.Represents bound s) {t : Region}
    (written : t.members = r.members.setIfInBounds e.id.index e.adds) : t.ids = e.on bound s := by
  ext id
  rw [mem_ids, contains_of_written written, h.bound_eq, Edit.on]
  by_cases here : id = e.id
  · subst here
    by_cases below : e.id.index < bound
    · cases e.adds <;> simp [below]
    · have absent : e.id ∉ s := fun member => below (h.index_lt e.id member)
      cases e.adds <;> simp [below, h.contains_iff, absent]
  · cases e.adds <;> simp [h.contains_iff, here]

/-- The number stays right when it follows the flags. -/
theorem Counted.followed {t : Region} (right : r.Counted) (small : r.bound ≤ UInt32.size)
    (followed : r.FollowedBy t) : t.Counted := by
  have difference := followed.difference
  rw [counted_iff_held small] at right
  rw [counted_iff_held (followed.bound ▸ small)]
  omega

/-- An edit of a region is the edit of its set. It tells the truth about whether the set changes. -/
theorem Represents.tell? (h : r.Represents bound s) (e : Edit) :
    ∃ t told, r.tell? e = some (t, told) ∧ t.Represents bound (e.on bound s) ∧
      (told ↔ e.id.index < bound ∧ (e.id ∈ s ↔ e.adds = false)) ∧ (told = false → t = r) := by
  obtain ⟨t, edited, followed⟩ := h.balanced.exists_edit? e
  obtain ⟨⟨u, told⟩, run, same⟩ := Option.map_eq_some_iff.1 edited
  obtain rfl : u = t := same
  obtain ⟨written, -⟩ := edit?_eq_some edited
  have truth := told_iff run
  refine ⟨u, told, run, ⟨h.small, followed.bound.trans h.bound_eq, h.ids_of_written written,
    h.counted.followed h.bound_lt.le followed⟩, ?_, fun silent => ?_⟩
  · rw [truth, getElem?_eq_some_iff, h.bound_eq, ← h.contains_iff]
    cases e.adds <;> simp
  · have stands : r.members[e.id.index]? ≠ some !e.adds := fun turned => by
      rw [silent] at truth
      exact Bool.false_ne_true (truth.2 turned)
    exact Option.some.inj (edited.symm.trans (edit?_of_ne stands))

end Edits

/-- Ids that are added one after the other. -/
theorem Represents.insertAll (h : r.Represents bound s) (ids : List LocId) :
    ∃ t, ids.foldlM (fun r id => (r.insert? id).map Prod.fst) r = some t ∧
      t.Represents bound (s ∪ (LocId.below bound ∩ {id | id ∈ ids})) := by
  induction ids generalizing r s with
  | nil => exact ⟨r, rfl, by simpa using h⟩
  | cons id ids ih =>
    obtain ⟨u, told, first, represents, -, -⟩ := h.tell? ⟨id, true⟩
    obtain ⟨t, later, ends⟩ := ih represents
    refine ⟨t, ?_, ?_⟩
    · rw [List.foldlM_cons, show r.insert? id = some (u, told) from first]
      exact later
    · convert ends using 1
      ext x
      simp [Edit.on]
      tauto

/-- No recipe fails, and what it makes is its set. -/
theorem Recipe.exists_make? (e : Recipe) : ∃ r, e.make? = some r ∧ r.Represents e.bound e.ids := by
  induction e with
  | empty bound => exact exists_empty? bound.toNat_lt
  | full bound => exact exists_full? bound.toNat_lt
  | ofFn bound p => exact ⟨_, rfl, represents_ofFn bound.toNat_lt fun _ => Iff.rfl⟩
  | ofIds bound ids =>
    obtain ⟨r, made, represents⟩ := exists_empty? bound.toNat_lt
    obtain ⟨t, run, result⟩ := represents.insertAll ids
    rw [Set.empty_union] at result
    exact ⟨t, by rw [make?, ofIds?, made, ← run]; rfl, result⟩
  | insert e id ih =>
    obtain ⟨r, made, represents⟩ := ih
    obtain ⟨t, told, run, result, -, -⟩ := represents.tell? ⟨id, true⟩
    exact ⟨t, by rw [make?, made, Option.bind_some, show r.insert? id = _ from run]; rfl, result⟩
  | erase e id ih =>
    obtain ⟨r, made, represents⟩ := ih
    obtain ⟨t, told, run, result, -, -⟩ := represents.tell? ⟨id, false⟩
    exact ⟨t, by rw [make?, made, Option.bind_some, show r.erase? id = _ from run]; rfl, result⟩
  | inter e f ihe ihf =>
    obtain ⟨r, first, left⟩ := ihe
    obtain ⟨t, second, right⟩ := ihf
    exact ⟨r.inter t, by rw [make?, first, second]; rfl, left.inter right⟩
  | union e f ihe ihf =>
    obtain ⟨r, first, left⟩ := ihe
    obtain ⟨t, second, right⟩ := ihf
    exact ⟨r.union t, by rw [make?, first, second]; rfl, left.union right⟩
  | complement e ih =>
    obtain ⟨r, made, represents⟩ := ih
    exact ⟨r.complement, by rw [make?, made]; rfl, represents.complement⟩

/-- What a finite set of ids below a bound answers: membership, its exact size, its members in
order, and whether an id is new to it or was in it. An edit that changes nothing leaves the very
same region. -/
structure IsFiniteSet (r : Region) (bound : ℕ) (s : Set LocId) : Prop where
  bound_eq : r.bound = bound
  inside : ∀ id ∈ s, id.index < bound
  contains_iff : ∀ id, r.contains id ↔ id ∈ s
  size_eq : r.size = s.ncard
  isEmpty_iff : r.isEmpty ↔ s = ∅
  mem_toList_iff : ∀ id, id ∈ r.toList ↔ id ∈ s
  increasing : r.toList.Pairwise fun a b => a.index < b.index
  insert : ∀ id, ∃ t new, r.insert? id = some (t, new) ∧ (new ↔ id.index < bound ∧ id ∉ s) ∧
    (new = false → t = r) ∧ t.Represents bound (s ∪ ({id} ∩ LocId.below bound))
  erase : ∀ id, ∃ t was, r.erase? id = some (t, was) ∧ (was ↔ id.index < bound ∧ id ∈ s) ∧
    (was = false → t = r) ∧ t.Represents bound (s \ {id})

theorem Represents.isFiniteSet (h : r.Represents bound s) : r.IsFiniteSet bound s where
  bound_eq := h.bound_eq
  inside := h.index_lt
  contains_iff := h.contains_iff
  size_eq := h.ids_eq ▸ h.counted
  isEmpty_iff := by
    rw [h.counted.isEmpty_iff h.bound_lt.le, Set.eq_empty_iff_forall_notMem]
    simp only [h.contains_iff]
  mem_toList_iff id := (mem_toList h.bound_lt.le).trans (h.contains_iff id)
  increasing := pairwise_toList h.bound_lt.le
  insert id := by
    obtain ⟨t, told, run, result, truth, same⟩ := h.tell? ⟨id, true⟩
    exact ⟨t, told, run, by simpa using truth, same, result⟩
  erase id := by
    obtain ⟨t, told, run, result, truth, same⟩ := h.tell? ⟨id, false⟩
    exact ⟨t, told, run, by simpa using truth, same, result⟩

/-- Whatever two recipes are followed, both regions are made. The first is its finite set, and the
two are combined and compared as sets are, even if their bounds differ. -/
theorem recipes_make_finite_sets (e f : Recipe) : ∃ r t, e.make? = some r ∧ f.make? = some t ∧
    r.IsFiniteSet e.bound e.ids ∧
    ((r.inter t).bound = r.bound ∧
      ∀ id, (r.inter t).contains id = (r.contains id && t.contains id)) ∧
    ((r.union t).bound = max r.bound t.bound ∧
      ∀ id, (r.union t).contains id = (r.contains id || t.contains id)) ∧
    (r.complement.bound = r.bound ∧
      ∀ id, r.complement.contains id = (decide (id.index < r.bound) && !r.contains id)) ∧
    (r.isSubset t ↔ ∀ id, r.contains id → t.contains id) ∧
    (r = t ↔ r.bound = t.bound ∧ ∀ id, r.contains id = t.contains id) := by
  obtain ⟨r, made, left⟩ := e.exists_make?
  obtain ⟨t, made', right⟩ := f.exists_make?
  have inter := left.inter right
  have union := left.union right
  have complement := left.complement
  refine ⟨r, t, made, made', left.isFiniteSet, ⟨?_, fun id => ?_⟩, ⟨?_, fun id => ?_⟩,
    ⟨?_, fun id => ?_⟩, ?_, ?_⟩
  · rw [inter.bound_eq, left.bound_eq]
  · rw [Bool.eq_iff_iff]
    simp [inter.contains_iff, left.contains_iff, right.contains_iff]
  · rw [union.bound_eq, left.bound_eq, right.bound_eq]
  · rw [Bool.eq_iff_iff]
    simp [union.contains_iff, left.contains_iff, right.contains_iff]
  · rw [complement.bound_eq, left.bound_eq]
  · rw [Bool.eq_iff_iff]
    simp [complement.contains_iff, ← left.contains_iff, left.bound_eq]
  · simp only [left.isSubset_iff right, left.contains_iff, right.contains_iff]
    rfl
  · simp only [left.eq_iff right, left.bound_eq, right.bound_eq, Bool.eq_iff_iff,
      left.contains_iff, right.contains_iff, Set.ext_iff]

/-- Ids past the bound are passed over, and the union reaches as far as the larger bound. -/
example : (Recipe.union (.erase (.full 3) (.ofNat 1))
    (.insert (.ofIds 5 [.ofNat 9, .ofNat 4]) (.ofNat 7))).make? =
      some ⟨#[true, false, true, false, true], 3⟩ := by decide

end Region

end RingLock
