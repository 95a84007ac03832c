import RingLock.Proofs.Arena.RegionIds
import RingLock.Proofs.Encoding.Records
import RingLock.Proofs.Traversal

/-!
# Edits of regions

Ids are added to a region and removed from it, one after the other. An edit moves the stored number
together with the flags, so the two differ after any edits by as much as before. The reader of
regions does not compare them: every region is read from its form, whatever number it stores, and
it is consistent if and only if the number is right. Edits fail if and only if the number can leave
its range before the flags are used up.
-/
namespace RingLock.Region

open Binary JsonForm

/-- Adds an id, or removes it. -/
structure Edit where
  id : LocId
  adds : Bool

def edit? (r : Region) (e : Edit) : Option Region :=
  (if e.adds then r.insert? e.id else r.erase? e.id).map Prod.fst

/-- One edit after the other. -/
def edits? (r : Region) (edits : List Edit) : Option Region := edits.foldlM edit? r

/-- Adds all ids below a bound, or removes them. -/
def Edit.everywhere (bound : ℕ) (adds : Bool) : List Edit :=
  ((List.range bound).map LocId.ofNat).map fun id => ⟨id, adds⟩

/-- The number of true flags. -/
def held (r : Region) : ℕ := r.members.count true

/-- The stored number can follow one flag more, or one less. -/
def HasRoom (r : Region) : Bool → Prop
  | true => r.size + 1 < UInt64.size
  | false => 0 < r.size

/-- Another region of the same bound, whose stored number has moved with its flags. -/
structure FollowedBy (r t : Region) : Prop where
  bound : t.bound = r.bound
  difference : r.size + t.held = t.size + r.held

/-- The stored number stays in its range until all flags are false, and until all are true. -/
structure Balanced (r : Region) : Prop where
  low : r.held ≤ r.size
  high : r.size + (r.bound - r.held) < UInt64.size

variable {r s t : Region} {e : Edit}

theorem held_le_bound (r : Region) : r.held ≤ r.bound := Array.count_le_size

theorem held_pos {i : ℕ} (member : r.members[i]? = some true) : 0 < r.held :=
  Array.count_pos_iff.2 (Array.mem_of_getElem? member)

theorem held_lt_bound {i : ℕ} (free : r.members[i]? = some false) : r.held < r.bound := by
  refine Nat.lt_of_le_of_ne r.held_le_bound fun all_true => ?_
  have := Array.count_eq_size.1 all_true false (Array.mem_of_getElem? free)
  contradiction

theorem held_eq_length (r : Region) : r.held = r.toList.length := r.count_members

theorem size_lt (r : Region) : r.size < UInt64.size := r.count.toNat_lt

theorem FollowedBy.refl (r : Region) : r.FollowedBy r := ⟨rfl, rfl⟩

theorem FollowedBy.trans (first : r.FollowedBy s) (next : s.FollowedBy t) : r.FollowedBy t where
  bound := next.bound.trans first.bound
  difference := by
    have := first.difference
    have := next.difference
    omega

theorem Balanced.followed (balanced : r.Balanced) (followed : r.FollowedBy t) : t.Balanced := by
  have := balanced.low
  have := balanced.high
  have := followed.bound
  have := followed.difference
  have := r.held_le_bound
  have := t.held_le_bound
  exact ⟨by omega, by omega⟩

section Flags

variable {flags : Array Bool} {i : ℕ} {flag : Bool}

/-- A flag that is turned over counts. -/
theorem count_setIfInBounds (turned : flags[i]? = some !flag) :
    (flags.setIfInBounds i flag).count true + flag.not.toNat = flags.count true + flag.toNat := by
  obtain ⟨inside, there⟩ := Array.getElem?_eq_some_iff.1 turned
  rw [Array.setIfInBounds, dif_pos inside, Array.count_set inside, there]
  cases flag with
  | true => rfl
  | false =>
    have : 0 < flags.count true := Array.count_pos_iff.2 (there ▸ Array.getElem_mem inside :)
    simp
    omega

/-- A flag that stands already is written without effect. -/
theorem setIfInBounds_of_ne (stands : flags[i]? ≠ some !flag) :
    flags.setIfInBounds i flag = flags := by
  apply Array.ext_getElem?
  intro j
  rw [Array.getElem?_setIfInBounds]
  split
  case isFalse => rfl
  case isTrue same =>
    subst same
    split
    case isFalse beyond => exact (Array.getElem?_eq_none (Nat.not_lt.1 beyond)).symm
    case isTrue inside =>
      rw [Array.getElem?_eq_getElem inside] at stands ⊢
      simpa [eq_comm] using stands

end Flags

theorem edit?_of_ne (stands : r.members[e.id.index]? ≠ some !e.adds) : r.edit? e = some r := by
  obtain ⟨id, adds⟩ := e
  cases adds with
  | true =>
    change (r.insert? id).map Prod.fst = _
    rw [insert?]
    split
    · contradiction
    · rfl
  | false =>
    change (r.erase? id).map Prod.fst = _
    rw [erase?]
    split
    · contradiction
    · rfl

/-- An edit that turns a flag over needs room for the stored number, which moves by one. -/
theorem edit?_of_turned (turned : r.members[e.id.index]? = some !e.adds) (room : r.HasRoom e.adds) :
    ∃ n : UInt64, r.edit? e = some ⟨r.members.setIfInBounds e.id.index e.adds, n⟩ ∧
      n.toNat + e.adds.not.toNat = r.size + e.adds.toNat := by
  obtain ⟨id, adds⟩ := e
  cases adds with
  | true =>
    refine ⟨r.count + 1, ?_, ?_⟩
    · change (r.insert? id).map Prod.fst = _
      rw [insert?, turned]
      exact congrArg (Option.map Prod.fst) (if_pos room)
    · exact Nat.mod_eq_of_lt room
  | false =>
    have room : 0 < r.size := room
    refine ⟨r.count - 1, ?_, ?_⟩
    · change (r.erase? id).map Prod.fst = _
      rw [erase?, turned]
      exact congrArg (Option.map Prod.fst) (if_pos room)
    · have lower : (r.count - 1).toNat = r.size - 1 := UInt64.toNat_sub_of_le _ _ room
      simp
      omega

theorem edit?_of_no_room (turned : r.members[e.id.index]? = some !e.adds)
    (full : ¬r.HasRoom e.adds) : r.edit? e = none := by
  obtain ⟨id, adds⟩ := e
  cases adds with
  | true =>
    change (r.insert? id).map Prod.fst = _
    rw [insert?, turned]
    exact congrArg (Option.map Prod.fst) (if_neg full)
  | false =>
    change (r.erase? id).map Prod.fst = _
    rw [erase?, turned]
    exact congrArg (Option.map Prod.fst) (if_neg full)

/-- An edit writes one flag, and the stored number follows. -/
theorem edit?_eq_some (h : r.edit? e = some t) :
    t.members = r.members.setIfInBounds e.id.index e.adds ∧ r.FollowedBy t := by
  by_cases turned : r.members[e.id.index]? = some !e.adds
  · by_cases room : r.HasRoom e.adds
    · obtain ⟨n, edited, number⟩ := edit?_of_turned turned room
      obtain rfl := Option.some.inj (edited.symm.trans h)
      refine ⟨rfl, Array.size_setIfInBounds, ?_⟩
      have flags := count_setIfInBounds turned
      change r.size + (r.members.setIfInBounds ..).count true = n.toNat + r.members.count true
      omega
    · rw [edit?_of_no_room turned room] at h
      contradiction
  · rw [edit?_of_ne turned] at h
    obtain rfl := Option.some.inj h
    exact ⟨(setIfInBounds_of_ne turned).symm, .refl r⟩

theorem Balanced.hasRoom (balanced : r.Balanced) {i : ℕ} {flag : Bool}
    (turned : r.members[i]? = some !flag) : r.HasRoom flag := by
  cases flag with
  | true =>
    have fewer := held_lt_bound turned
    have := balanced.high
    change r.size + 1 < UInt64.size
    omega
  | false => exact (held_pos turned).trans_le balanced.low

theorem Balanced.exists_edit? (balanced : r.Balanced) (e : Edit) :
    ∃ t, r.edit? e = some t ∧ r.FollowedBy t := by
  obtain ⟨t, edited⟩ : ∃ t, r.edit? e = some t := by
    by_cases turned : r.members[e.id.index]? = some !e.adds
    · obtain ⟨n, edited, -⟩ := edit?_of_turned turned (balanced.hasRoom turned)
      exact ⟨_, edited⟩
    · exact ⟨r, edit?_of_ne turned⟩
  exact ⟨t, edited, (edit?_eq_some edited).2⟩

theorem Balanced.exists_edits? (balanced : r.Balanced) (edits : List Edit) :
    ∃ t, r.edits? edits = some t ∧ r.FollowedBy t := by
  refine Traversal.exists_foldlM (fun s followed e _ => ?_) (.refl r)
  obtain ⟨t, edited, next⟩ := (balanced.followed followed).exists_edit? e
  exact ⟨t, edited, followed.trans next⟩

theorem edits?_followed {edits : List Edit} (h : r.edits? edits = some t) : r.FollowedBy t := by
  induction edits generalizing r with
  | nil =>
    obtain rfl := Option.some.inj h
    exact .refl r
  | cons e edits ih =>
    obtain ⟨s, first, later⟩ := Option.bind_eq_some_iff.1 h
    exact (edit?_eq_some first).2.trans (ih later)

/-- Where one flag is written at several ids, it stands there, and it is kept where it stood. -/
theorem getElem?_of_edits? {flag : Bool} {ids : List LocId} {i : ℕ}
    (h : r.edits? (ids.map fun id => ⟨id, flag⟩) = some t) (inside : i < r.bound)
    (chosen : (∃ id ∈ ids, id.index = i) ∨ r.members[i]? = some flag) :
    t.members[i]? = some flag := by
  induction ids generalizing r with
  | nil =>
    obtain rfl := Option.some.inj h
    exact chosen.resolve_left nofun
  | cons id ids ih =>
    obtain ⟨s, first, later⟩ := Option.bind_eq_some_iff.1 h
    obtain ⟨written, followed⟩ := edit?_eq_some first
    refine ih later (followed.bound ▸ inside) ?_
    rw [written]
    by_cases here : id.index = i
    · subst here
      exact .inr (Array.getElem?_setIfInBounds_self_of_lt inside)
    · rw [Array.getElem?_setIfInBounds_ne here]
      refine chosen.imp_left ?_
      rintro ⟨other, among, there⟩
      rcases List.mem_cons.1 among with rfl | among
      · contradiction
      · exact ⟨other, among, there⟩

/-- After all ids below the bound are added, or all are removed, the flags are alike. -/
theorem eq_of_mem_edits? {flag : Bool} (small : r.bound ≤ UInt32.size)
    (h : r.edits? (Edit.everywhere r.bound flag) = some t) : ∀ b ∈ t.members, b = flag := by
  intro b member
  obtain ⟨i, inside, there⟩ := Array.getElem_of_mem member
  have below : i < r.bound := inside.trans_eq (edits?_followed h).bound
  have written := getElem?_of_edits? h below
    (.inl ⟨_, List.mem_map_of_mem (List.mem_range.2 below), LocId.index_ofNat (by omega)⟩)
  rw [Array.getElem?_eq_getElem inside, there] at written
  exact Option.some.inj written

/-- All edits succeed if and only if the stored number keeps to its range. -/
theorem edits?_isSome_iff (small : r.bound ≤ UInt32.size) :
    (∀ edits, ∃ t, r.edits? edits = some t) ↔ r.Balanced := by
  constructor
  · intro succeeds
    constructor
    case low =>
      obtain ⟨t, erased⟩ := succeeds (Edit.everywhere r.bound false)
      have none_left : t.held = 0 :=
        Array.count_eq_zero.2 fun member => nomatch eq_of_mem_edits? small erased _ member
      have := (edits?_followed erased).difference
      omega
    case high =>
      obtain ⟨t, inserted⟩ := succeeds (Edit.everywhere r.bound true)
      have all_there : t.held = t.bound :=
        Array.count_eq_size.2 fun b member => (eq_of_mem_edits? small inserted b member).symm
      have followed := edits?_followed inserted
      have := followed.bound
      have := followed.difference
      have := r.held_le_bound
      have := t.size_lt
      omega
  · intro balanced edits
    obtain ⟨t, succeeds, -⟩ := balanced.exists_edits? edits
    exact ⟨t, succeeds⟩

/-- A region whose stored number can be relied on: the size, the test for emptiness and equality
speak of the members, and edits keep it so. -/
structure Consistent (r : Region) : Prop where
  size_eq : r.size = r.toList.length
  isEmpty_iff : r.isEmpty ↔ r.toList = []
  eq_iff : ∀ s : Region, s.size = s.toList.length → (r = s ↔ r.members = s.members)
  edits : ∀ edits, ∃ t, r.edits? edits = some t ∧ t.size = t.toList.length

theorem consistent_iff (fits : r.bound < UInt64.size) : r.Consistent ↔ r.size = r.held := by
  constructor
  · intro consistent
    rw [consistent.size_eq, held_eq_length]
  · intro right
    have counted : r.size = r.toList.length := right.trans r.held_eq_length
    refine ⟨counted, ?_, fun s counted' => ?_, fun edits => ?_⟩
    · rw [isEmpty_iff_size, counted, List.length_eq_zero_iff]
    · constructor
      · exact congrArg members
      · intro same
        have numbers : r.count = s.count := by
          apply UInt64.toNat_inj.1
          change r.size = s.size
          rw [right, counted', ← held_eq_length, held, held, same]
        cases r
        cases s
        simp_all
    · have balanced : r.Balanced := by
        have := r.held_le_bound
        exact ⟨by omega, by omega⟩
      obtain ⟨t, succeeds, followed⟩ := balanced.exists_edits? edits
      have := followed.difference
      refine ⟨t, succeeds, ?_⟩
      rw [← held_eq_length]
      omega

/-- Whatever number stands beside its flags, a region is read from its bytes and from its text. It
is consistent if and only if the number is right, and no edit fails if and only if the number stays
in its range. -/
theorem decoded_consistent_iff (r : Region) (fits : r.bound < UInt64.size) :
    (∀ input, Binary.read input = .ok r ↔ encode r <+: input) ∧
    JsonForm.read (write r) = some (.ok r) ∧
    (r.Consistent ↔ r.size = r.held) ∧
    (r.bound ≤ UInt32.size → ((∀ edits, ∃ t, r.edits? edits = some t) ↔ r.Balanced)) := by
  refine ⟨fun input => ?_, (restores_region r).restored, consistent_iff fits, edits?_isSome_iff⟩
  rw [exact_region.read_eq_ok, and_iff_right fits]

/-- Two of three ids with the right number. One of two ids with a number that is too large, but not
too large for edits. -/
theorem decoded_of_three_ids :
    (Binary.read (encode (⟨#[true, false, true], 2⟩ : Region) ++ [7]) : Except DecodeFault Region) =
      .ok ⟨#[true, false, true], 2⟩ ∧
    Consistent ⟨#[true, false, true], 2⟩ ∧
    JsonForm.read (write (⟨#[true, false], 5⟩ : Region)) =
      some (.ok (⟨#[true, false], 5⟩ : Region)) ∧
    ¬Consistent ⟨#[true, false], 5⟩ ∧ ∀ edits, ∃ t, edits? ⟨#[true, false], 5⟩ edits = some t := by
  obtain ⟨reads, -, consistent, -⟩ :=
    decoded_consistent_iff ⟨#[true, false, true], 2⟩ (by decide)
  obtain ⟨-, restored, inconsistent, edits⟩ :=
    decoded_consistent_iff ⟨#[true, false], 5⟩ (by decide)
  exact ⟨(reads _).2 (List.prefix_append ..), consistent.2 (by decide), restored,
    fun h => absurd (inconsistent.1 h) (by decide), (edits (by decide)).2 ⟨by decide, by decide⟩⟩

/-- One id is a member and the stored number is zero. The region is read from bytes and from text.
It passes for empty, it differs from the region of the same members, and the member cannot be
removed. -/
theorem one_id_beside_zero :
    (Binary.read [1, 0, 0, 0, 0, 0, 0, 0, 1, 0, 0, 0, 0, 0, 0, 0, 0] : Except DecodeFault Region) =
      .ok ⟨#[true], 0⟩ ∧
    (JsonForm.read "\x7b\"members\":[true],\"count\":0\x7d" : Option (Except FormFault Region)) =
      some (.ok ⟨#[true], 0⟩) ∧
    (⟨#[true], 0⟩ : Region).size ≠ (⟨#[true], 0⟩ : Region).held ∧
    (⟨#[true], 0⟩ : Region).isEmpty ∧ (⟨#[true], 0⟩ : Region).contains (.ofNat 0) ∧
    (⟨#[true], 0⟩ : Region) ≠ ofMembers #[true] ∧ erase? ⟨#[true], 0⟩ (.ofNat 0) = none := by
  refine ⟨rfl, ?_, by decide, by decide, by decide, by decide, by decide⟩
  have text : write (⟨#[true], 0⟩ : Region) = "\x7b\"members\":[true],\"count\":0\x7d" := rfl
  rw [← text]
  exact (restores_region ⟨#[true], 0⟩).restored

end RingLock.Region
