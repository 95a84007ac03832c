import Mathlib.Algebra.Group.Nat.Defs
import Mathlib.Data.List.Basic
import RingLock.Encoding.Values
import RingLock.Proofs.Text.Utf8

/-!
# Canonical forms

A type is canonical if a value is read from its own form and from nothing else. A type answers if
its reader never gives up, whatever the bytes. Both pass from the parts to the whole: to lists, to
optional values and to records.
-/
namespace RingLock

/-- The faults that are no answer: they end the program and not only the reading. -/
def DecodeFault.Fatal : DecodeFault → Prop
  | unallocatable | exhausted _ => True
  | _ => False

namespace Binary

variable {α β : Type}

section Decoders

variable {d : Decoder α} {input rest : List UInt8}

theorem run_bind_eq_ok {f : α → Decoder β} {y : β} : (d >>= f).run input = .ok (y, rest) ↔
    ∃ x mid, d.run input = .ok (x, mid) ∧ (f x).run mid = .ok (y, rest) := by
  rw [StateT.run_bind, Traversal.bind_eq_ok]
  exact Prod.exists

/-- A fault comes from the first reader or from the one after it. -/
theorem run_bind_eq_error {f : α → Decoder β} {fault : DecodeFault} :
    (d >>= f).run input = .error fault ↔ d.run input = .error fault ∨
      ∃ x mid, d.run input = .ok (x, mid) ∧ (f x).run mid = .error fault := by
  rw [StateT.run_bind]
  cases d.run input with
  | error early =>
    change Except.error early = .error fault ↔ _
    simp
  | ok found =>
    change (f found.1).run found.2 = .error fault ↔ _
    simp [Prod.ext_iff]

theorem run_map_eq_ok {f : α → β} {y : β} : (f <$> d).run input = .ok (y, rest) ↔
    ∃ x, d.run input = .ok (x, rest) ∧ f x = y := by
  rw [← bind_pure_comp, run_bind_eq_ok]
  constructor
  · rintro ⟨x, mid, first, last⟩
    obtain ⟨rfl, rfl⟩ := Prod.mk.inj (Except.ok.inj last)
    exact ⟨x, first, rfl⟩
  · rintro ⟨x, first, rfl⟩
    exact ⟨x, rest, first, rfl⟩

theorem run_pure_eq_ok {x y : α} :
    (pure x : Decoder α).run input = .ok (y, rest) ↔ x = y ∧ input = rest := by
  change Except.ok (x, input) = .ok (y, rest) ↔ _
  simp

theorem run_byte_eq_ok {b : UInt8} : byte.run input = .ok (b, rest) ↔ input = b :: rest := by
  cases input <;> simp [byte, StateT.run]

theorem run_bytes_eq_ok {count : ℕ} {taken : List UInt8}
    (h : (bytes count).run input = .ok (taken, rest)) :
    taken.length = count ∧ input = taken ++ rest := by
  obtain ⟨enough, read⟩ := Traversal.provided_eq_ok.1 h
  obtain ⟨rfl, rfl⟩ := Prod.mk.inj (Except.ok.inj read)
  exact ⟨enough, (List.take_append_drop count input).symm⟩

/-- A number is read from its own form, and it fits into its width. -/
theorem run_number_eq_ok {width n : ℕ} (h : (number width).run input = .ok (n, rest)) :
    n < 256 ^ width ∧ input = littleEndian width n ++ rest := by
  induction width generalizing input n with
  | zero =>
    obtain ⟨rfl, rfl⟩ := run_pure_eq_ok.1 h
    exact ⟨by decide, rfl⟩
  | succ width ih =>
    obtain ⟨low, later, first, h⟩ := run_bind_eq_ok.1 h
    obtain ⟨high, last, second, h⟩ := run_bind_eq_ok.1 h
    obtain ⟨rfl, rfl⟩ := run_pure_eq_ok.1 h
    obtain ⟨bound, rfl⟩ := ih second
    rw [run_byte_eq_ok] at first
    have small : low.toNat < 256 := UInt8.toNat_lt_size low
    have above : (low.toNat + 256 * high) / 256 = high := by omega
    have below : UInt8.ofNat (low.toNat + 256 * high) = low := by
      apply UInt8.toNat_inj.1
      rw [UInt8.toNat_ofNat']
      omega
    constructor
    · rw [Nat.pow_succ]
      omega
    · rw [littleEndian, above, below, first, List.cons_append]

end Decoders

/-- So many values are read from their own forms in a row. -/
theorem run_gather_eq_ok {item : Decoder α} {form : α → List UInt8}
    (own : ∀ {input rest x}, item.run input = .ok (x, rest) → input = form x ++ rest) {count : ℕ}
    {got xs : List α} {input rest : List UInt8}
    (h : (gather item count got).run input = .ok (xs, rest)) :
    ∃ new, xs = got.reverse ++ new ∧ new.length = count ∧ input = new.flatMap form ++ rest := by
  induction count generalizing got input with
  | zero =>
    obtain ⟨rfl, rfl⟩ := Prod.mk.inj (Except.ok.inj h)
    exact ⟨[], by simp, rfl, rfl⟩
  | succ count ih =>
    change gather item (count + 1) got input = _ at h
    unfold gather at h
    split at h
    case h_1 => contradiction
    case h_2 x later first =>
      obtain ⟨new, rfl, length, rfl⟩ := ih h
      refine ⟨x :: new, by simp, by simp [length], ?_⟩
      rw [own first, List.flatMap_cons, List.append_assoc]

/-- A value is read from its own form and from nothing else. -/
class Canonical (α : Type) [Binary α] : Prop where
  own_form : ∀ {input rest : List UInt8} {x : α},
    (decode : Decoder α).run input = .ok (x, rest) → input = encode x ++ rest

theorem run_many_eq_ok [Binary α] [Canonical α] {count : ℕ} {xs : List α}
    {input rest : List UInt8} (h : (many (decode : Decoder α) count).run input = .ok (xs, rest)) :
    xs.length = count ∧ input = xs.flatMap encode ++ rest := by
  obtain ⟨new, rfl, length, form⟩ := run_gather_eq_ok Canonical.own_form h
  exact ⟨length, form⟩

/-- A type whose values are made from what another reader reads. -/
theorem canonical_of_map [Binary β] {d : Decoder α} {f : α → β}
    (reads : (decode : Decoder β) = f <$> d)
    (own : ∀ {input rest x}, d.run input = .ok (x, rest) → input = encode (f x) ++ rest) :
    Canonical β where
  own_form h := by
    rw [reads] at h
    obtain ⟨x, read, rfl⟩ := run_map_eq_ok.1 h
    exact own read

/-- Words are written as numbers of a width that holds them all. -/
theorem canonical_of_number [Binary β] (width : ℕ) {ofNat : ℕ → β} {toNat : β → ℕ}
    (reads : (decode : Decoder β) = ofNat <$> number width)
    (writes : ∀ x : β, encode x = littleEndian width (toNat x))
    (fits : ∀ n < 256 ^ width, toNat (ofNat n) = n) : Canonical β :=
  canonical_of_map reads fun h => by
    obtain ⟨bound, form⟩ := run_number_eq_ok h
    rw [form, writes, fits _ bound]

instance : Canonical UInt8 where
  own_form := run_byte_eq_ok.1

instance : Canonical UInt16 :=
  canonical_of_number 2 rfl (fun _ => rfl) fun _ bound => Nat.mod_eq_of_lt bound

instance : Canonical UInt32 :=
  canonical_of_number 4 rfl (fun _ => rfl) fun _ bound => Nat.mod_eq_of_lt bound

instance : Canonical UInt64 :=
  canonical_of_number 8 rfl (fun _ => rfl) fun _ bound => Nat.mod_eq_of_lt bound

instance : Canonical Int64 :=
  canonical_of_map rfl fun {input rest n} h => by
    change _ = encode n.toInt64.toUInt64 ++ _
    rw [UInt64.toUInt64_toInt64]
    exact Canonical.own_form h

theorem run_decodeLength_eq_ok {n : ℕ} {input rest : List UInt8}
    (h : decodeLength.run input = .ok (n, rest)) : input = encodeLength n ++ rest := by
  obtain ⟨length, read, rfl⟩ := run_map_eq_ok.1 h
  rw [encodeLength, UInt64.ofNat_toNat]
  exact Canonical.own_form read

theorem run_decodeLength_lt {n : ℕ} {input rest : List UInt8}
    (h : decodeLength.run input = .ok (n, rest)) : n < UInt64.size := by
  obtain ⟨length, -, rfl⟩ := run_map_eq_ok.1 h
  exact length.toNat_lt

theorem run_char_cons (first : UInt8) (later : List UInt8) :
    (decode : Decoder Char).run (first :: later) = match Utf8.character first later with
      | .error _ => .error .character
      | .ok (c, more) => .ok (c, later.drop more) := rfl

instance : Canonical Char where
  own_form {input rest c} h := by
    cases input with
    | nil => contradiction
    | cons first later =>
      rw [run_char_cons] at h
      split at h
      case h_1 => contradiction
      case h_2 read =>
        obtain ⟨rfl, rfl⟩ := Prod.mk.inj (Except.ok.inj h)
        exact (Utf8.encode_of_character read).symm

instance : Canonical String where
  own_form {input rest s} h := by
    obtain ⟨count, later, first, h⟩ := run_bind_eq_ok.1 h
    obtain ⟨text, last, second, third⟩ := run_bind_eq_ok.1 h
    obtain ⟨length, rfl⟩ := run_bytes_eq_ok second
    cases read : Utf8.decode text with
    | error flaw =>
      rw [read] at third
      contradiction
    | ok t =>
      rw [read] at third
      obtain ⟨rfl, rfl⟩ := run_pure_eq_ok.1 third
      change _ = (encodeLength (Utf8.encode t).length ++ Utf8.encode t) ++ _
      rw [Utf8.encode_of_decode read, length, run_decodeLength_eq_ok first, List.append_assoc]

theorem encode_list [Binary α] (xs : List α) :
    encode xs = encodeLength xs.length ++ xs.flatMap encode := rfl

instance [Binary α] [Canonical α] : Canonical (List α) where
  own_form h := by
    obtain ⟨length, later, first, h⟩ := run_bind_eq_ok.1 h
    obtain ⟨rfl, rfl⟩ := run_many_eq_ok h
    rw [run_decodeLength_eq_ok first, encode_list, List.append_assoc]

instance [Binary α] [Canonical α] : Canonical (Option α) where
  own_form {input rest x} h := by
    obtain ⟨tag, later, first, h⟩ := run_bind_eq_ok.1 h
    rw [run_byte_eq_ok] at first
    split at h
    case isTrue absent =>
      obtain ⟨rfl, rfl⟩ := run_pure_eq_ok.1 h
      rw [first, absent]
      rfl
    split at h
    case isTrue present =>
      obtain ⟨y, read, rfl⟩ := run_map_eq_ok.1 h
      rw [first, present, Canonical.own_form read]
      rfl
    contradiction

/-- Making room beforehand does not change what is read. -/
theorem run_decodeRoomy_eq_ok {xs input rest : List UInt8}
    (h : decodeRoomy.run input = .ok (xs, rest)) : input = encode xs ++ rest := by
  obtain ⟨length, later, first, h⟩ := run_bind_eq_ok.1 h
  split at h
  case isTrue => contradiction
  split at h
  case isTrue => contradiction
  obtain ⟨rfl, rfl⟩ := run_many_eq_ok h
  rw [run_decodeLength_eq_ok first, encode_list, List.append_assoc]

/-- What is read has found room, and it is read from its own form. -/
theorem run_decodeReserved_eq_ok {xs input rest : List UInt8}
    (h : decodeReserved.run input = .ok (xs, rest)) :
    xs.length < memory ∧ input = encode xs ++ rest := by
  obtain ⟨length, later, first, h⟩ := run_bind_eq_ok.1 h
  split at h
  case isTrue => contradiction
  split at h
  case isTrue => contradiction
  case isFalse fits =>
    obtain ⟨rfl, rfl⟩ := run_many_eq_ok h
    refine ⟨Nat.not_le.1 fits, ?_⟩
    rw [run_decodeLength_eq_ok first, encode_list, List.append_assoc]

instance : Canonical Hand := canonical_of_map rfl run_decodeRoomy_eq_ok

instance : Canonical Packed := canonical_of_map rfl fun h => (Canonical.own_form h).trans rfl

instance : Canonical Listed := canonical_of_map rfl run_decodeRoomy_eq_ok

instance {C : Type} [Binary C] [Canonical C] : Canonical (Position C) where
  own_form h := by
    obtain ⟨coloring, later, first, h⟩ := run_bind_eq_ok.1 h
    obtain ⟨hand, last, second, h⟩ := run_bind_eq_ok.1 h
    obtain ⟨rfl, rfl⟩ := run_pure_eq_ok.1 h
    change _ = (encode coloring ++ encode hand) ++ _
    rw [Canonical.own_form first, Canonical.own_form second, List.append_assoc]

instance : Canonical LocId := canonical_of_map rfl fun h => (Canonical.own_form h).trans rfl

instance : Canonical Action := canonical_of_map rfl fun h => (Canonical.own_form h).trans rfl

instance : Canonical ObservationClass :=
  canonical_of_map rfl fun h => (Canonical.own_form h).trans rfl

/-- A reader that never gives up. -/
def Answers (d : Decoder α) : Prop :=
  ∀ input fault, d.run input = .error fault → ¬fault.Fatal

section Answers

variable {d : Decoder α}

theorem Answers.bind {f : α → Decoder β} (first : Answers d) (next : ∀ x, Answers (f x)) :
    Answers (d >>= f) := by
  intro input fault ended
  rcases run_bind_eq_error.1 ended with early | ⟨x, mid, -, late⟩
  · exact first input fault early
  · exact next x mid fault late

theorem answers_pure (x : α) : Answers (pure x : Decoder α) := nofun

theorem answers_fail {fault : DecodeFault} (h : ¬fault.Fatal) :
    Answers (fail fault : Decoder α) := by
  intro input other ended
  obtain rfl := Except.error.inj ended
  exact h

theorem Answers.map (f : α → β) (h : Answers d) : Answers (f <$> d) := by
  rw [← bind_pure_comp]
  exact h.bind fun x => answers_pure (f x)

theorem answers_byte : Answers byte := by
  intro input fault ended
  cases input with
  | nil =>
    obtain rfl := Except.error.inj ended
    exact nofun
  | cons b rest => contradiction

theorem answers_number (width : ℕ) : Answers (number width) := by
  induction width with
  | zero => exact answers_pure 0
  | succ width ih => exact answers_byte.bind fun _ => ih.bind fun _ => answers_pure _

theorem Answers.gather (h : Answers d) (count : ℕ) (got : List α) :
    Answers (gather d count got) := by
  induction count generalizing got with
  | zero => exact nofun
  | succ count ih =>
    intro input fault ended
    change Binary.gather d (count + 1) got input = _ at ended
    unfold Binary.gather at ended
    split at ended
    case h_1 early read =>
      obtain rfl := Except.error.inj ended
      exact h input _ read
    case h_2 x later read => exact ih (x :: got) later fault ended

end Answers

/-- A type whose reader never gives up. -/
class Answering (α : Type) [Binary α] : Prop where
  answers : Answers (decode : Decoder α)

theorem read_eq_error [Binary α] {input : List UInt8} {fault : DecodeFault} :
    (Binary.read input : Except DecodeFault α) = .error fault ↔
      (decode : Decoder α).run input = .error fault := by
  rw [Binary.read]
  cases (decode : Decoder α).run input <;> simp [Except.map]

theorem not_fatal_of_read [Binary α] [Answering α] {input : List UInt8} {fault : DecodeFault}
    (h : (Binary.read input : Except DecodeFault α) = .error fault) : ¬fault.Fatal :=
  Answering.answers input fault (read_eq_error.1 h)

instance : Answering UInt8 := ⟨answers_byte⟩

instance : Answering UInt16 := ⟨(answers_number 2).map _⟩

instance : Answering UInt32 := ⟨(answers_number 4).map _⟩

instance : Answering UInt64 := ⟨(answers_number 8).map _⟩

instance : Answering Int64 := ⟨(answers_number 8).map _ |>.map _⟩

theorem answers_decodeLength : Answers decodeLength := (answers_number 8).map _ |>.map _

instance : Answering Char where
  answers := by
    intro input fault ended
    cases input with
    | nil =>
      obtain rfl := Except.error.inj ended
      exact nofun
    | cons first later =>
      rw [run_char_cons] at ended
      split at ended
      case h_1 =>
        obtain rfl := Except.error.inj ended
        exact nofun
      case h_2 => contradiction

instance : Answering String where
  answers := by
    apply answers_decodeLength.bind
    intro count
    apply Answers.bind
    · intro input fault ended
      change (if (input.take count).length = count then _ else _) = _ at ended
      split at ended
      case isTrue => contradiction
      case isFalse =>
        obtain rfl := Except.error.inj ended
        exact nofun
    · intro text
      cases Utf8.decode text with
      | error flaw => exact answers_fail nofun
      | ok s => exact answers_pure s

instance [Binary α] [Answering α] : Answering (List α) where
  answers := answers_decodeLength.bind fun count => Answering.answers.gather count []

instance [Binary α] [Answering α] : Answering (Option α) where
  answers := by
    apply answers_byte.bind
    intro tag
    split
    case isTrue => exact answers_pure none
    split
    case isTrue => exact Answering.answers.map some
    exact answers_fail nofun

theorem answers_decodeRoomy : Answers decodeRoomy := by
  apply answers_decodeLength.bind
  intro count
  split
  case isTrue => exact answers_fail nofun
  split
  case isTrue => exact answers_fail nofun
  exact answers_byte.gather count []

instance : Answering Hand := ⟨answers_decodeRoomy.map _⟩

instance : Answering Packed := ⟨(answers_number 4).map _ |>.map _⟩

instance : Answering Listed := ⟨answers_decodeRoomy.map _⟩

instance {C : Type} [Binary C] [Answering C] : Answering (Position C) where
  answers := Answering.answers.bind fun _ => Answering.answers.bind fun _ => answers_pure _

instance : Answering LocId := ⟨(answers_number 4).map _ |>.map _⟩

instance : Answering Action := ⟨(answers_number 2).map _ |>.map _⟩

instance : Answering ObservationClass := ⟨(answers_number 4).map _ |>.map _⟩

end Binary

end RingLock
