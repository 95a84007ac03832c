import RingLock.Proofs.Encoding.JsonForm
import RingLock.Proofs.Encoding.RoundTrip
import RingLock.Proofs.Ring.Steps

/-!
# Stored rings

A live ring is made from colors, drawn, or read from bytes or from a JSON value. What is stored is a
pair of colors and a palette. A reader accepts a pair that is sound and refuses every other one: an
empty palette before any color, and of the colors outside the palette the first. So a ring is sound
from whatever source, and it stays so. The pair of a sound ring is read back. Room for the colors is
made before they are read, and a reader of bytes does not survive it if there is none.
-/
namespace RingLock

open Binary JsonForm

namespace Ring

/-- The answer to a pair of colors and a palette. -/
structure Judged {β : Type} (w : Ring) (accepted : β) (refused : Fault → β) (answer : β) :
    Prop where
  sound : w.Sound → answer = accepted
  empty : w.palette = 0 → answer = refused .emptyPalette
  outside : ∀ before color after, w.palette ≠ 0 → w.colors = before ++ color :: after →
    (∀ c ∈ before, c < w.palette) → w.palette ≤ color →
      answer = refused (.colorOutside color w.palette)

/-- A reader judges the pairs that its inputs spell, and accepts nothing else. -/
structure Judges {ι ε : Type} (spells : ι → Ring → Prop) (refused : Fault → ε)
    (read : ι → Except ε Ring) : Prop where
  judged : ∀ input w, spells input w → w.Judged (.ok w) (.error ∘ refused) (read input)
  spelled : ∀ input r, read input = .ok r → spells input r ∧ r.Sound

theorem judged_check (w : Ring) : w.Judged (.ok w) .error w.check where
  sound sound := (check_eq_ok_iff w w).2 ⟨sound, rfl⟩
  empty none_left := if_pos none_left
  outside before color after some_left split inside beyond := by
    have skipped : before.find? (w.palette ≤ ·) = none := by
      simpa [List.find?_eq_none] using inside
    have first : w.colors.find? (w.palette ≤ ·) = some color := by
      rw [split, List.find?_append, skipped, Option.none_or]
      exact List.find?_cons_of_pos (by simpa using beyond)
    rw [check, if_neg some_left, first]

/-- The check as part of a reader, where a refusal is one of several faults. -/
theorem judged_mapError {ε : Type} (w : Ring) (refused : Fault → ε) :
    w.Judged (.ok w) (.error ∘ refused) (w.check.mapError refused) where
  sound sound := congrArg (Except.mapError refused) (w.judged_check.sound sound)
  empty none_left := congrArg (Except.mapError refused) (w.judged_check.empty none_left)
  outside before color after some_left split inside beyond := congrArg (Except.mapError refused)
    (w.judged_check.outside before color after some_left split inside beyond)

theorem mapError_check_eq_ok {ε : Type} {w r : Ring} {refused : Fault → ε} :
    w.check.mapError refused = .ok r ↔ w.Sound ∧ w = r := by
  rw [eq_comm (a := w), ← check_eq_ok_iff]
  cases w.check <;> simp [Except.mapError]

/-- The answer of the bytes' reader to a pair. -/
def answer (w : Ring) : Decoder Ring :=
  match w.check with
  | .ok r => return r
  | .error fault => fail (.refused fault)

theorem run_decode_encode {w : Ring} (fits : w.size < memory) (rest : List UInt8) :
    (decode : Decoder Ring).run (encode w ++ rest) = w.answer.run rest := by
  change decode.run ((encode w.colors ++ [w.palette]) ++ rest) = _
  rw [List.append_assoc]
  -- The pair may be refused at the end, so the parts are read one by one and not as a whole.
  refine ((reads_reserved fits).run_bind _ _).trans ?_
  exact (Reads.byte w.palette).run_bind _ _

theorem answer_read (w : Ring) (rest : List UInt8) :
    (w.answer.run rest).map Prod.fst = w.check.mapError .refused := by
  rw [answer]
  cases w.check <;> rfl

theorem run_answer_eq_ok {w r : Ring} {input rest : List UInt8}
    (h : w.answer.run input = .ok (r, rest)) : w = r ∧ r.Sound ∧ input = rest := by
  rw [answer] at h
  split at h
  case h_1 q accepted =>
    obtain ⟨rfl, rfl⟩ := run_pure_eq_ok.1 h
    obtain ⟨sound, rfl⟩ := (check_eq_ok_iff w q).1 accepted
    exact ⟨rfl, sound, rfl⟩
  case h_2 => contradiction

/-- What is read is sound and read from its own form. -/
theorem run_decode_eq_ok {r : Ring} {input rest : List UInt8}
    (h : (decode : Decoder Ring).run input = .ok (r, rest)) :
    r.size < memory ∧ input = encode r ++ rest ∧ r.Sound := by
  obtain ⟨colors, last, first, h⟩ := run_bind_eq_ok.1 h
  obtain ⟨palette, final, second, h⟩ := run_bind_eq_ok.1 h
  obtain ⟨rfl, sound, rfl⟩ := run_answer_eq_ok h
  obtain ⟨fits, rfl⟩ := run_decodeReserved_eq_ok first
  obtain rfl := run_byte_eq_ok.1 second
  refine ⟨fits, ?_, sound⟩
  change _ = (encode colors ++ [palette]) ++ final
  rw [List.append_assoc]
  rfl

theorem answers_answer (w : Ring) : Answers w.answer := by
  rw [answer]
  split
  case h_1 => exact answers_pure _
  case h_2 => exact answers_fail nofun

/-- The program ends with the reader only where room for the colors is made. -/
theorem read_eq_fatal {input : List UInt8} {fault : DecodeFault} (fatal : fault.Fatal) :
    (Binary.read input : Except DecodeFault Ring) = .error fault ↔ ∃ length rest,
      (length < UInt64.size ∧ input = encodeLength length ++ rest) ∧
      (capacity ≤ length ∧ fault = .unallocatable ∨
        memory ≤ length ∧ length < capacity ∧ fault = .exhausted length) := by
  rw [read_eq_error, ← run_decodeReserved_eq_fatal fatal]
  change (decodeReserved >>= fun colors => decode >>= fun palette =>
    answer ⟨colors, palette⟩).run input = _ ↔ _
  rw [run_bind_eq_error, or_iff_left]
  -- Behind the colors every input gets an answer.
  rintro ⟨colors, mid, -, ended⟩
  have answers : Answers (decode >>= fun palette => answer ⟨colors, palette⟩) :=
    answers_byte.bind fun palette => answers_answer ⟨colors, palette⟩
  exact answers mid fault ended fatal

theorem read_eq_unallocatable {input : List UInt8} :
    (Binary.read input : Except DecodeFault Ring) = .error .unallocatable ↔ ∃ length rest,
      capacity ≤ length ∧ length < UInt64.size ∧ input = encodeLength length ++ rest := by
  have fatal : DecodeFault.Fatal .unallocatable := trivial
  rw [read_eq_fatal fatal]
  refine exists_congr fun length => exists_congr fun rest => ?_
  simp only [and_true, reduceCtorEq, and_false, or_false]
  exact and_comm

theorem read_eq_exhausted {input : List UInt8} {length : ℕ} :
    (Binary.read input : Except DecodeFault Ring) = .error (.exhausted length) ↔
      memory ≤ length ∧ length < capacity ∧ ∃ rest, input = encodeLength length ++ rest := by
  have fatal : DecodeFault.Fatal (.exhausted length) := trivial
  rw [read_eq_fatal fatal]
  constructor
  · rintro ⟨n, rest, ⟨-, form⟩, ⟨-, other⟩ | ⟨scarce, storable, same⟩⟩
    · contradiction
    · obtain rfl := DecodeFault.exhausted.inj same
      exact ⟨scarce, storable, rest, form⟩
  · rintro ⟨scarce, storable, rest, form⟩
    exact ⟨length, rest, ⟨storable.trans (by decide), form⟩, .inr ⟨scarce, storable, rfl⟩⟩

/-- Bytes get an answer if and only if they do not announce more colors than there is room for. -/
theorem read_answers_iff {input : List UInt8} :
    (∀ fault, (Binary.read input : Except DecodeFault Ring) = .error fault → ¬fault.Fatal) ↔
      ∀ length rest, length < UInt64.size → input = encodeLength length ++ rest →
        length < memory := by
  constructor
  · intro answers length rest fits form
    by_contra scarce
    rw [Nat.not_lt] at scarce
    rcases Nat.lt_or_ge length capacity with storable | beyond
    · exact answers _ (read_eq_exhausted.2 ⟨scarce, storable, rest, form⟩) trivial
    · exact answers _ (read_eq_unallocatable.2 ⟨length, rest, beyond, fits, form⟩) trivial
  · intro few fault ended fatal
    obtain ⟨length, rest, ⟨fits, form⟩, way⟩ := (read_eq_fatal fatal).1 ended
    have room := few length rest fits form
    rcases way with ⟨beyond, -⟩ | ⟨scarce, -⟩
    · exact absurd (room.trans (by decide)) (Nat.not_lt.2 beyond)
    · exact absurd room (Nat.not_lt.2 scarce)

/-- Bytes that begin with the form of a pair for whose colors there is room. -/
def Begins (input : List UInt8) (w : Ring) : Prop :=
  w.size < memory ∧ ∃ rest, input = encode w ++ rest

theorem judges_bytes : Judges Begins DecodeFault.refused Binary.read where
  judged input w begins := by
    obtain ⟨fits, rest, rfl⟩ := begins
    rw [Binary.read, run_decode_encode fits, answer_read]
    exact w.judged_mapError _
  spelled input r accepted := by
    rw [Binary.read] at accepted
    cases run : (decode : Decoder Ring).run input with
    | error fault =>
      rw [run] at accepted
      contradiction
    | ok found =>
      rw [run] at accepted
      obtain rfl := Except.ok.inj accepted
      obtain ⟨fits, form, sound⟩ := run_decode_eq_ok run
      exact ⟨⟨fits, _, form⟩, sound⟩

/-- A JSON value spells a pair: by named fields in any order, where others may stand between them,
or by a list of the two. -/
inductive Spells : Json → Ring → Prop
  | byName {fields : List (Option String × Json)} {colors palette : Json} {w : Ring}
      (spelled : ∀ f ∈ fields, f.1.isSome) (oneColors : valuesOf "colors" fields = [colors])
      (onePalette : valuesOf "palette" fields = [palette]) (reads : ofJson colors = .ok w.colors)
      (reads' : ofJson palette = .ok w.palette) : Spells (.record fields) w
  | byPlace {colors palette : Json} {w : Ring} (reads : ofJson colors = .ok w.colors)
      (reads' : ofJson palette = .ok w.palette) : Spells (.list [colors, palette]) w

def storedFields : List Field := [("colors", accepts (List UInt8)), ("palette", accepts UInt8)]

/-- The pair of a JSON value, before it is judged. -/
def pairOf (j : Json) : Except FormFault Ring := do
  let got ← fieldsOf "struct RawLockState" storedFields j
  let colors ← field got "colors"
  let palette ← field got "palette"
  return ⟨colors, palette⟩

theorem ofJson_eq (j : Json) :
    (ofJson j : Except FormFault Ring) = pairOf j >>= fun w => w.check.mapError .refused := by
  change (fieldsOf _ _ j >>= fun got => field got "colors" >>= fun colors =>
    field got "palette" >>= fun palette => _) = _
  simp only [pairOf, bind_assoc, pure_bind]
  refine bind_congr fun got => bind_congr fun colors => bind_congr fun palette => ?_
  cases (Ring.mk colors palette).check <;> rfl

theorem lookup_storedFields {name : String} {check : Json → Except FormFault Unit}
    (h : storedFields.lookup name = some check) :
    name = "colors" ∧ check = accepts (List UInt8) ∨ name = "palette" ∧ check = accepts UInt8 := by
  simp only [storedFields, List.lookup_cons, List.lookup_nil] at h
  split at h
  case h_1 first => exact .inl ⟨eq_of_beq first, (Option.some.inj h).symm⟩
  case h_2 =>
    split at h
    case h_1 second => exact .inr ⟨eq_of_beq second, (Option.some.inj h).symm⟩
    case h_2 => contradiction

theorem pairOf_eq_ok_iff {j : Json} {w : Ring} : pairOf j = .ok w ↔ ∃ got,
    fieldsOf "struct RawLockState" storedFields j = .ok got ∧
      (∃ colors, got.lookup "colors" = some colors ∧ ofJson colors = .ok w.colors) ∧
      ∃ palette, got.lookup "palette" = some palette ∧ ofJson palette = .ok w.palette := by
  simp only [pairOf, Traversal.bind_eq_ok, field_eq_ok]
  constructor
  · rintro ⟨got, read, colors, first, palette, second, same⟩
    obtain rfl := Except.ok.inj same
    exact ⟨got, read, first, second⟩
  · rintro ⟨got, read, first, second⟩
    exact ⟨got, read, _, first, _, second, rfl⟩

theorem spells_of_pairOf {j : Json} {w : Ring} (h : pairOf j = .ok w) : Spells j w := by
  obtain ⟨got, fields, ⟨colors, first, reads⟩, palette, second, reads'⟩ := pairOf_eq_ok_iff.1 h
  rw [fieldsOf.eq_def] at fields
  split at fields
  case h_1 =>
    obtain ⟨spelled, stands⟩ := named_eq_ok fields
    have oneColors := (stands "colors" _ rfl).1
    have onePalette := (stands "palette" _ rfl).1
    rw [first] at oneColors
    rw [second] at onePalette
    exact .byName spelled oneColors.symm onePalette.symm reads reads'
  case h_2 items =>
    obtain ⟨pass, rfl⟩ := placed_eq_ok.1 fields
    obtain ⟨c, later, -, one, rfl⟩ := List.forall₂_cons_left_iff.1 pass
    obtain ⟨p, others, -, none_left, rfl⟩ := List.forall₂_cons_left_iff.1 one
    obtain rfl := List.forall₂_nil_left_iff.1 none_left
    obtain rfl := Option.some.inj first
    obtain rfl := Option.some.inj second
    exact .byPlace reads reads'
  case h_3 => contradiction

theorem pairOf_of_spells {j : Json} {w : Ring} (h : Spells j w) : pairOf j = .ok w := by
  rw [pairOf_eq_ok_iff]
  cases h with
  | @byName fields colors palette _ spelled oneColors onePalette reads reads' =>
    obtain ⟨got, run⟩ : ∃ got, named storedFields [] fields = .ok got := by
      refine exists_named spelled fun name check known => ?_
      rcases lookup_storedFields known with ⟨rfl, rfl⟩ | ⟨rfl, rfl⟩
      · simp [oneColors, accepts_eq_ok.2 ⟨_, reads⟩]
      · simp [onePalette, accepts_eq_ok.2 ⟨_, reads'⟩]
    obtain ⟨-, stands⟩ := named_eq_ok run
    have first := (stands "colors" _ rfl).1
    have second := (stands "palette" _ rfl).1
    rw [oneColors] at first
    rw [onePalette] at second
    exact ⟨got, run, ⟨colors, by simpa using first, reads⟩, palette, by simpa using second, reads'⟩
  | @byPlace colors palette _ reads reads' =>
    have pass : List.Forall₂ (fun f j => f.2 j = .ok ()) storedFields [colors, palette] :=
      .cons (accepts_eq_ok.2 ⟨_, reads⟩) (.cons (accepts_eq_ok.2 ⟨_, reads'⟩) .nil)
    exact ⟨_, placed_eq_ok.2 ⟨pass, rfl⟩, ⟨colors, rfl, reads⟩, palette, rfl, reads'⟩

theorem pairOf_eq_ok {j : Json} {w : Ring} : pairOf j = .ok w ↔ Spells j w :=
  ⟨spells_of_pairOf, pairOf_of_spells⟩

theorem judges_json : Judges Spells FormFault.refused ofJson where
  judged j w spells := by
    rw [ofJson_eq, pairOf_eq_ok.2 spells]
    exact w.judged_mapError _
  spelled j r accepted := by
    rw [ofJson_eq] at accepted
    obtain ⟨w, spells, accepted⟩ := Traversal.bind_eq_ok.1 accepted
    obtain ⟨sound, rfl⟩ := mapError_check_eq_ok.1 accepted
    exact ⟨pairOf_eq_ok.1 spells, sound⟩

/-- The form of a pair spells it, and the text of the form tells all of it. -/
theorem spells_toJson (w : Ring) : (toJson w).Exact ∧ Spells (toJson w) w := by
  have colors : Restores w.colors := restores_list fun c _ => restores_uint8 c
  have palette := restores_uint8 w.palette
  constructor
  · rw [show toJson w = .ofFields _ from rfl, Json.exact_ofFields]
    simp [colors.exact, palette.exact]
  · exact .byName (by simp) rfl rfl colors.form palette.form

theorem Sound.readsBack {r : Ring} (sound : r.Sound) (fits : r.size < memory) : ReadsBack r := by
  intro rest
  rw [run_decode_encode fits, answer, (check_eq_ok_iff r r).2 ⟨sound, rfl⟩]
  rfl

theorem Sound.restores {r : Ring} (sound : r.Sound) : Restores r := by
  obtain ⟨exact, spells⟩ := r.spells_toJson
  exact ⟨exact, (judges_json.judged _ r spells).sound sound⟩

theorem Sound.read_write {r : Ring} (sound : r.Sound) : read (write r) = some (.ok r) :=
  sound.restores.restored

/-- The sources of live rings, with the number of holes that the ring begins with. -/
inductive Obtained : Ring → ℕ → Prop
  | made (colors : List UInt8) (palette : UInt8) : Obtained (of colors palette) colors.length
  | drawn {holes : ℕ} {palette : UInt8} {g h : Generator} {r : Ring}
      (draws : random? holes palette g = some (r, h)) : Obtained r holes
  | bytes {input : List UInt8} {r : Ring} (reads : Binary.read input = .ok r) : Obtained r r.size
  | json {j : Json} {r : Ring} (reads : ofJson j = .ok r) : Obtained r r.size

theorem Obtained.sound {r : Ring} {holes : ℕ} (obtained : Obtained r holes) :
    r.Sound ∧ r.size = holes := by
  cases obtained with
  | made colors palette => exact ⟨sound_of colors palette, List.length_map ..⟩
  | drawn draws =>
    obtain ⟨sound, size, -⟩ := random?_eq_some draws
    exact ⟨sound, size⟩
  | bytes reads => exact ⟨(judges_bytes.spelled _ r reads).2, rfl⟩
  | json reads => exact ⟨(judges_json.spelled _ r reads).2, rfl⟩

/-- A ring is drawn if the draws of its colors end. -/
theorem exists_random? {holes : ℕ} {palette : UInt8} {g : Generator}
    (yields : g.Yields (Generator.color? (max palette 1)) holes) :
    ∃ r h, random? holes palette g = some (r, h) := by
  obtain ⟨colors, h, draws⟩ := Generator.exists_colors? yields
  exact ⟨⟨colors, max palette 1⟩, h, by rw [random?, draws]; rfl⟩

/-- A live ring is sound from whatever source, and acts with any arguments leave it sound, with the
holes it began with. Its pair is then read back, from bytes and from text. Both readers judge the
pairs that they find. Bytes get an answer if and only if they do not announce more colors than there
is room for: the reader gives up on a length that no list can have, and on a shorter one the memory
is exhausted. -/
theorem obtained_stays_sound (input : List UInt8) :
    (∀ r holes, Obtained r holes → ∀ acts, ∃ q, r.acts? acts = some q ∧
      q.Sound ∧ q.size = holes ∧ q.palette = r.palette ∧
      (holes < memory → ReadsBack q) ∧ read (write q) = some (.ok q)) ∧
    (∀ holes palette (g : Generator), g.Yields (Generator.color? (max palette 1)) holes →
      ∃ r h, random? holes palette g = some (r, h)) ∧
    Judges Begins DecodeFault.refused Binary.read ∧
    Judges Spells FormFault.refused ofJson ∧
    ((∀ fault, (Binary.read input : Except DecodeFault Ring) = .error fault → ¬fault.Fatal) ↔
      ∀ length rest, length < UInt64.size → input = encodeLength length ++ rest →
        length < memory) ∧
    ((Binary.read input : Except DecodeFault Ring) = .error .unallocatable ↔ ∃ length rest,
      capacity ≤ length ∧ length < UInt64.size ∧ input = encodeLength length ++ rest) ∧
    ∀ length, (Binary.read input : Except DecodeFault Ring) = .error (.exhausted length) ↔
      memory ≤ length ∧ length < capacity ∧ ∃ rest, input = encodeLength length ++ rest := by
  refine ⟨?_, fun _ _ _ => exists_random?, judges_bytes, judges_json, read_answers_iff,
    read_eq_unallocatable, fun _ => read_eq_exhausted⟩
  intro r holes obtained acts
  obtain ⟨sound, rfl⟩ := obtained.sound
  obtain ⟨q, run, kept⟩ := sound.acts?_kept acts
  refine ⟨q, run, kept.sound, kept.size, kept.palette, fun fits => ?_, kept.sound.read_write⟩
  exact kept.sound.readsBack (kept.size ▸ fits)

/-- Four colors that were reduced, a cycle and a write beyond the ring, a hole that is written
twice, more than a full turn. Two colors that are drawn. Two stored pairs that are refused. -/
theorem four_colors_stay_sound :
    (∃ q, acts? (of [5, 3, 9, 9] 4) [.cycle 7, .recolor ⟨[9, 1, 1]⟩ [200, 7, 6, 1], .rotate 5,
      .cycle 1] = some q ∧ q = ⟨[1, 2, 2, 1], 4⟩ ∧ q.Sound ∧ ReadsBack q ∧
        read (write q) = some (.ok q)) ∧
    (∃ r h, random? 2 3 (.ofSeed 5) = some (r, h)) ∧
    Binary.read (encode (⟨[2, 3, 4], 3⟩ : Ring)) =
      (.error (.refused (.colorOutside 3 3)) : Except DecodeFault Ring) ∧
    ofJson (.list [.list [.integer 7], .integer 0]) =
      (.error (.refused .emptyPalette) : Except FormFault Ring) := by
  obtain ⟨sources, draws, bytes, json, -⟩ := obtained_stays_sound (encode (⟨[2, 3, 4], 3⟩ : Ring))
  refine ⟨?_, ?_, ?_, ?_⟩
  · obtain ⟨q, run, sound, -, -, reads, text⟩ := sources _ 4 (.made [5, 3, 9, 9] 4)
      [.cycle 7, .recolor ⟨[9, 1, 1]⟩ [200, 7, 6, 1], .rotate 5, .cycle 1]
    obtain rfl : ⟨[1, 2, 2, 1], 4⟩ = q := Option.some.inj run
    exact ⟨_, run, rfl, sound, reads (by decide), text⟩
  · exact draws 2 3 (.ofSeed 5) (by decide +kernel)
  · have judged := bytes.judged _ ⟨[2, 3, 4], 3⟩ ⟨by decide, [], (List.append_nil _).symm⟩
    exact judged.outside [2] 3 [4] (by decide) rfl (by simp) (by decide)
  · exact (json.judged _ ⟨[7], 0⟩ (.byPlace rfl rfl)).empty rfl

/-- On eight bytes that announce as many colors as can be written the reader gives up, where that of
a coloring answers with a fault. -/
theorem eight_bytes_get_no_answer :
    (Binary.read (.replicate 8 255) : Except DecodeFault Ring) = .error .unallocatable ∧
    (Binary.read (.replicate 8 255) : Except DecodeFault Listed) = .error .capacity := by
  refine ⟨read_eq_unallocatable.2 ⟨UInt64.size - 1, [], by decide, by decide, ?_⟩, ?_⟩
  · decide
  · decide +kernel

end Ring

end RingLock
