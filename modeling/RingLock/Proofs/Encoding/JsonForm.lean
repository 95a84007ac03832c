import RingLock.Encoding.JsonForm
import RingLock.Proofs.Encoding.JsonText
import RingLock.Proofs.Traversal

/-!
# JSON forms

A record is read from its named fields exactly if all of them spell a name, every known name stands
no more than once and its value passes the check. What is then found under a known name is the value
that stands there. A value is restored from its form if its text tells all of the form. This passes
from items to lists.
-/
namespace RingLock.JsonForm

section Fields

/-- The values that stand under a name. -/
def valuesOf (name : String) (fields : List (Option String × Json)) : List Json :=
  (fields.filter fun f => f.1 == some name).map Prod.snd

theorem valuesOf_cons_self (name : String) (j : Json) (fields : List (Option String × Json)) :
    valuesOf name ((some name, j) :: fields) = j :: valuesOf name fields := by
  simp [valuesOf]

theorem valuesOf_cons_of_ne {name other : String} (h : other ≠ name) (j : Json)
    (fields : List (Option String × Json)) :
    valuesOf name ((some other, j) :: fields) = valuesOf name fields := by
  simp [valuesOf, h]

variable {known : List Field} {fields : List (Option String × Json)}
  {got res : List (String × Json)}

/-- Fields that are read by name all have names, a known one stands at most once, and what stands
under it has passed its check. -/
theorem named_eq_ok (h : named known got fields = .ok res) : (∀ f ∈ fields, f.1.isSome) ∧
    ∀ name check, known.lookup name = some check →
      (res.lookup name).toList = (got.lookup name).toList ++ valuesOf name fields ∧
      ∀ j ∈ valuesOf name fields, check j = .ok () := by
  induction fields generalizing got with
  | nil =>
    obtain rfl := Except.ok.inj h
    exact ⟨nofun, fun name check _ => ⟨(List.append_nil _).symm, nofun⟩⟩
  | cons f fields ih =>
    obtain ⟨- | name, j⟩ := f
    · contradiction
    rw [named] at h
    split at h
    case h_1 unknown =>
      obtain ⟨spelled, stands⟩ := ih h
      refine ⟨List.forall_mem_cons.2 ⟨rfl, spelled⟩, fun other check found => ?_⟩
      have differs : name ≠ other := by
        rintro rfl
        rw [unknown] at found
        contradiction
      rw [valuesOf_cons_of_ne differs]
      exact stands other check found
    case h_2 check there =>
      split at h
      case isTrue => contradiction
      case isFalse new =>
        obtain ⟨⟨⟩, passed, h⟩ := Traversal.bind_eq_ok.1 h
        obtain ⟨spelled, stands⟩ := ih h
        refine ⟨List.forall_mem_cons.2 ⟨rfl, spelled⟩, fun other test found => ?_⟩
        obtain ⟨looked, passes⟩ := stands other test found
        by_cases same : name = other
        · subst same
          obtain rfl := Option.some.inj (there.symm.trans found)
          have absent : got.lookup name = none := Option.not_isSome_iff_eq_none.1 new
          rw [valuesOf_cons_self]
          refine ⟨?_, List.forall_mem_cons.2 ⟨passed, passes⟩⟩
          rw [looked, absent]
          simp
        · rw [valuesOf_cons_of_ne same]
          refine ⟨?_, passes⟩
          rw [looked, List.lookup_cons, beq_false_of_ne (Ne.symm same)]

/-- Fields with names can be read if known names stand once and their values pass. -/
theorem exists_named (spelled : ∀ f ∈ fields, f.1.isSome)
    (once : ∀ name check, known.lookup name = some check →
      ((got.lookup name).toList ++ valuesOf name fields).length ≤ 1 ∧
      ∀ j ∈ valuesOf name fields, check j = .ok ()) :
    ∃ res, named known got fields = .ok res := by
  induction fields generalizing got with
  | nil => exact ⟨got, rfl⟩
  | cons f fields ih =>
    obtain ⟨first, later⟩ := List.forall_mem_cons.1 spelled
    obtain ⟨- | name, j⟩ := f
    · contradiction
    rw [named]
    split
    case h_1 unknown =>
      refine ih later fun other check found => ?_
      have differs : name ≠ other := by
        rintro rfl
        rw [unknown] at found
        contradiction
      have := once other check found
      rwa [valuesOf_cons_of_ne differs] at this
    case h_2 check there =>
      obtain ⟨short, passes⟩ := once name check there
      rw [valuesOf_cons_self] at short passes
      obtain ⟨passed, -⟩ := List.forall_mem_cons.1 passes
      have absent : got.lookup name = none := by
        cases found : got.lookup name with
        | none => rfl
        | some value =>
          rw [found] at short
          simp at short
      rw [if_neg (by simp [absent])]
      obtain ⟨res, run⟩ : ∃ res, named known ((name, j) :: got) fields = .ok res := by
        refine ih later fun other test found => ?_
        have stands := once other test found
        by_cases same : name = other
        · subst same
          rw [valuesOf_cons_self, absent] at stands
          exact ⟨by simpa using stands.1, (List.forall_mem_cons.1 stands.2).2⟩
        · rw [valuesOf_cons_of_ne same] at stands
          rwa [List.lookup_cons, beq_false_of_ne (Ne.symm same)]
      exact ⟨res, Traversal.bind_eq_ok.2 ⟨(), passed, run⟩⟩

/-- Fields that are read by place are as many as there are known ones, and each passes its check. -/
theorem placed_eq_ok {owner : String} {length total : ℕ} {items : List Json} :
    placed owner length total known items = .ok got ↔
      List.Forall₂ (fun f j => f.2 j = .ok ()) known items ∧
        got = (known.map Prod.fst).zip items := by
  induction known generalizing items got with
  | nil =>
    cases items with
    | nil => simp [placed, eq_comm]
    | cons j items => exact ⟨nofun, fun h => nomatch h.1⟩
  | cons f known ih =>
    cases items with
    | nil => exact ⟨nofun, fun h => nomatch h.1⟩
    | cons j items =>
      rw [placed, Traversal.bind_eq_ok, List.forall₂_cons, List.map_cons, List.zip_cons_cons]
      constructor
      · rintro ⟨⟨⟩, passed, h⟩
        obtain ⟨others, read, h⟩ := Traversal.bind_eq_ok.1 h
        obtain rfl := Except.ok.inj h
        obtain ⟨pass, rfl⟩ := ih.1 read
        exact ⟨⟨passed, pass⟩, rfl⟩
      · rintro ⟨⟨passed, pass⟩, rfl⟩
        exact ⟨(), passed, Traversal.bind_eq_ok.2 ⟨_, ih.2 ⟨pass, rfl⟩, rfl⟩⟩

theorem accepts_eq_ok {α : Type} [JsonForm α] {j : Json} :
    accepts α j = .ok () ↔ ∃ x, (ofJson j : Except FormFault α) = .ok x := by
  rw [accepts]
  cases (ofJson j : Except FormFault α) <;> simp [Except.map]

theorem field_eq_ok {α : Type} [JsonForm α] {name : String} {x : α} :
    field got name = .ok x ↔ ∃ j, got.lookup name = some j ∧ ofJson j = .ok x := by
  rw [field]
  cases got.lookup name <;> simp

end Fields

section Restores

variable {α : Type} [JsonForm α]

/-- The text of a value tells all of its form, and the value is read from it. -/
structure Restores (x : α) : Prop where
  exact : (toJson x).Exact
  form : ofJson (toJson x) = .ok x

/-- What is read from a written text is what is read from the form. -/
theorem read_write {x : α} (exact : (toJson x).Exact) :
    read (write x) = some (ofJson (toJson x) : Except FormFault α) := by
  rw [read, write, JsonText.parse?_toString exact, Option.map_some]

theorem Restores.restored {x : α} (restores : Restores x) : read (write x) = some (.ok x) := by
  rw [read_write restores.exact, restores.form]

/-- Numbers are restored from a range that holds them. -/
theorem restores_number {name : String} {limit : ℕ} {ofNat : ℕ → α} {toNat : α → ℕ}
    (reads : ∀ j, ofJson j = (bounded name limit j).map ofNat)
    (writes : ∀ x : α, toJson x = .integer (toNat x)) {x : α} (fits : toNat x < limit)
    (same : ofNat (toNat x) = x) : Restores x := by
  have inside : (0 : Int) ≤ toNat x ∧ (toNat x : Int) < limit := by omega
  refine ⟨by rw [writes]; trivial, ?_⟩
  rw [writes, reads, bounded, if_pos inside, Int.toNat_natCast]
  exact congrArg Except.ok same

theorem restores_uint8 (n : UInt8) : Restores n :=
  restores_number (fun _ => rfl) (fun _ => rfl) n.toNat_lt UInt8.ofNat_toNat

theorem restores_list {xs : List α} (each : ∀ x ∈ xs, Restores x) : Restores xs where
  exact := by
    refine Json.exactItems_iff.2 fun j member => ?_
    obtain ⟨x, held, rfl⟩ := List.mem_map.1 member
    exact (each x held).exact
  form := by
    change (xs.map toJson).mapM ofJson = .ok xs
    induction xs with
    | nil => rfl
    | cons x xs ih =>
      obtain ⟨first, later⟩ := List.forall_mem_cons.1 each
      rw [List.map_cons, List.mapM_cons, first.form, ih later]
      rfl

end Restores

end RingLock.JsonForm
