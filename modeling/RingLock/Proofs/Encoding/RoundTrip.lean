import RingLock.Proofs.Encoding.Canonical

/-!
# Reading back

A decoder reads a form if it finds its value in front of whatever follows, and leaves what follows.
This passes from the parts of a value to the whole. Lists and texts have to be short enough for
their length to fit into eight bytes, and lists of bytes for room to be made for them. Where a
reader needs the announced room at once, the program ends if there is none.
-/
namespace RingLock.Binary

variable {α β : Type}

/-- A value is found at the front of the bytes that begin with a form, and the rest is left. -/
def Reads (d : Decoder α) (form : List UInt8) (x : α) : Prop :=
  ∀ rest, d.run (form ++ rest) = .ok (x, rest)

namespace Reads

variable {d : Decoder α} {form later : List UInt8} {x : α}

theorem pure (x : α) : Reads (Pure.pure x) [] x := fun _ => rfl

/-- After the front has been read, the reading goes on with the rest. -/
theorem run_bind (first : Reads d form x) (f : α → Decoder β) (rest : List UInt8) :
    (d >>= f).run (form ++ rest) = (f x).run rest := by
  rw [StateT.run_bind, first]
  rfl

theorem bind {f : α → Decoder β} {y : β} (first : Reads d form x) (next : Reads (f x) later y) :
    Reads (d >>= f) (form ++ later) y := by
  intro rest
  rw [List.append_assoc, first.run_bind]
  exact next rest

theorem map (f : α → β) (h : Reads d form x) : Reads (f <$> d) form (f x) :=
  fun rest => run_map_eq_ok.2 ⟨x, h rest, rfl⟩

theorem byte (b : UInt8) : Reads byte [b] b := fun _ => run_byte_eq_ok.2 rfl

theorem number {width n : ℕ} (fits : n < 256 ^ width) :
    Reads (number width) (littleEndian width n) n := by
  intro rest
  rw [number_littleEndian]
  change Except.ok (n % 256 ^ width, rest) = _
  rw [Nat.mod_eq_of_lt fits]

theorem bytes (form : List UInt8) : Reads (bytes form.length) form form := by
  intro rest
  change (if ((form ++ rest).take form.length).length = form.length then _ else _) = _
  rw [List.take_left, if_pos rfl, List.drop_left]

theorem gather {form : α → List UInt8} {xs : List α} (each : ∀ x ∈ xs, Reads d (form x) x)
    (got : List α) : Reads (gather d xs.length got) (xs.flatMap form) (got.reverse ++ xs) := by
  induction xs generalizing got with
  | nil =>
    rw [List.append_nil]
    exact fun rest => rfl
  | cons x xs ih =>
    intro rest
    have first := each x List.mem_cons_self (xs.flatMap form ++ rest)
    have others := ih (fun y hy => each y (List.mem_cons_of_mem x hy)) (x :: got) rest
    rw [List.flatMap_cons, List.append_assoc]
    change Binary.gather d (xs.length + 1) got _ = _
    unfold Binary.gather
    change d _ = _ at first
    rw [first]
    rwa [List.reverse_cons, List.append_assoc] at others

theorem many {form : α → List UInt8} {xs : List α} (each : ∀ x ∈ xs, Reads d (form x) x) :
    Reads (many d xs.length) (xs.flatMap form) xs := gather each []

end Reads

/-- A value is read from its own form. -/
def ReadsBack [Binary α] (x : α) : Prop := Reads decode (encode x) x

/-- Words are read back from a width that holds them. -/
theorem readsBack_of_number [Binary β] (width : ℕ) {ofNat : ℕ → β} {toNat : β → ℕ}
    (reads : (decode : Decoder β) = ofNat <$> number width)
    (writes : ∀ x : β, encode x = littleEndian width (toNat x)) {x : β}
    (fits : toNat x < 256 ^ width) (same : ofNat (toNat x) = x) : ReadsBack x := by
  have read := (Reads.number fits).map ofNat
  rwa [same, ← reads, ← writes] at read

theorem readsBack_uint16 (n : UInt16) : ReadsBack n :=
  readsBack_of_number 2 rfl (fun _ => rfl) n.toNat_lt UInt16.ofNat_toNat

theorem readsBack_uint32 (n : UInt32) : ReadsBack n :=
  readsBack_of_number 4 rfl (fun _ => rfl) n.toNat_lt UInt32.ofNat_toNat

theorem readsBack_uint64 (n : UInt64) : ReadsBack n :=
  readsBack_of_number 8 rfl (fun _ => rfl) n.toNat_lt UInt64.ofNat_toNat

theorem readsBack_int64 (n : Int64) : ReadsBack n := by
  have read := (readsBack_uint64 n.toUInt64).map UInt64.toInt64
  rwa [Int64.toInt64_toUInt64] at read

theorem readsBack_char (c : Char) : ReadsBack c := by
  intro rest
  obtain ⟨first, tail, form, read⟩ := Utf8.character_of_encode c rest
  change decode.run (String.utf8EncodeChar c ++ rest) = _
  rw [form, List.cons_append, run_char_cons, read]
  simp

theorem reads_length {n : ℕ} (fits : n < UInt64.size) : Reads decodeLength (encodeLength n) n := by
  have read := (readsBack_uint64 (.ofNat n)).map UInt64.toNat
  rwa [UInt64.toNat_ofNat_of_lt' fits] at read

theorem run_decodeLength_eq_ok_iff {n : ℕ} {input rest : List UInt8} :
    decodeLength.run input = .ok (n, rest) ↔ n < UInt64.size ∧ input = encodeLength n ++ rest := by
  constructor
  · exact fun read => ⟨run_decodeLength_lt read, run_decodeLength_eq_ok read⟩
  · rintro ⟨fits, rfl⟩
    exact reads_length fits rest

theorem readsBack_string {s : String} (fits : (Utf8.encode s).length < UInt64.size) :
    ReadsBack s := by
  intro rest
  have length := reads_length fits (Utf8.encode s ++ rest)
  have text := Reads.bytes (Utf8.encode s) rest
  change decode.run ((encodeLength _ ++ Utf8.encode s) ++ rest) = _
  rw [List.append_assoc]
  refine run_bind_eq_ok.2 ⟨_, _, length, run_bind_eq_ok.2 ⟨_, _, text, ?_⟩⟩
  rw [Utf8.decode_encode]
  rfl

theorem readsBack_list [Binary α] {xs : List α} (fits : xs.length < UInt64.size)
    (each : ∀ x ∈ xs, ReadsBack x) : ReadsBack xs :=
  (reads_length fits).bind (.many each)

theorem readsBack_option [Binary α] {x : Option α} (each : ∀ y ∈ x, ReadsBack y) :
    ReadsBack x := by
  cases x with
  | none => exact (Reads.byte 0).bind (Reads.pure none)
  | some y => exact (Reads.byte 1).bind ((each y rfl).map some)

/-- The length of a list of bytes can be written, and there is room for the list. -/
structure Roomy (xs : List UInt8) : Prop where
  length : xs.length < UInt64.size
  room : room xs.length < memory

theorem reads_roomy {xs : List UInt8} (roomy : Roomy xs) : Reads decodeRoomy (encode xs) xs := by
  apply (reads_length roomy.length).bind
  have enough : room xs.length < capacity := Nat.lt_trans roomy.room (by decide)
  rw [if_neg (Nat.not_le.2 enough), if_neg (Nat.not_le.2 roomy.room)]
  exact Reads.many fun b _ => Reads.byte b

theorem reads_reserved {xs : List UInt8} (fits : xs.length < memory) :
    Reads decodeReserved (encode xs) xs := by
  have enough : xs.length < capacity := Nat.lt_trans fits (by decide)
  apply (reads_length (Nat.lt_trans enough (by decide))).bind
  rw [if_neg (Nat.not_le.2 enough), if_neg (Nat.not_le.2 fits)]
  exact Reads.many fun b _ => Reads.byte b

/-- The reader ends with the program exactly on lengths for which there is no room. It gives up on
those that no list can have. On the others it fails to get memory. -/
theorem run_decodeReserved_eq_fatal {input : List UInt8} {fault : DecodeFault}
    (fatal : fault.Fatal) : decodeReserved.run input = .error fault ↔ ∃ length rest,
      (length < UInt64.size ∧ input = encodeLength length ++ rest) ∧
      (capacity ≤ length ∧ fault = .unallocatable ∨
        memory ≤ length ∧ length < capacity ∧ fault = .exhausted length) := by
  have measured : decodeLength.run input ≠ .error fault :=
    fun ended => answers_decodeLength input fault ended fatal
  rw [decodeReserved, run_bind_eq_error, or_iff_right measured]
  refine exists_congr fun length => exists_congr fun rest => ?_
  rw [run_decodeLength_eq_ok_iff]
  refine and_congr_right fun _ => ?_
  split
  case isTrue beyond =>
    simp [fail, StateT.run, beyond, Nat.not_lt.2 beyond, eq_comm]
  case isFalse storable =>
    split
    case isTrue scarce =>
      simp [fail, StateT.run, storable, scarce, Nat.not_le.1 storable, eq_comm]
    case isFalse room =>
      have reads : (many byte length).run rest ≠ .error fault :=
        fun ended => answers_byte.gather length [] rest fault ended fatal
      simp [reads, storable, room]

theorem readsBack_hand {h : Hand} (roomy : Roomy h.holes) : ReadsBack h :=
  (reads_roomy roomy).map Hand.mk

theorem readsBack_packed (c : Packed) : ReadsBack c := (readsBack_uint32 c.bits).map Packed.mk

theorem readsBack_listed {c : Listed} (roomy : Roomy c.colors) : ReadsBack c :=
  (reads_roomy roomy).map Listed.mk

theorem readsBack_position {C : Type} [Binary C] {p : Position C} (coloring : ReadsBack p.coloring)
    (hand : ReadsBack p.hand) : ReadsBack p := by
  have read : Reads decode (encode p.coloring ++ (encode p.hand ++ [])) p :=
    coloring.bind (hand.bind (Reads.pure p))
  rwa [List.append_nil] at read

theorem readsBack_locId (id : LocId) : ReadsBack id := (readsBack_uint32 id.number).map LocId.mk

theorem readsBack_action (a : Action) : ReadsBack a := (readsBack_uint16 a.number).map Action.mk

theorem readsBack_observationClass (c : ObservationClass) : ReadsBack c :=
  (readsBack_uint32 c.number).map ObservationClass.mk

end RingLock.Binary
