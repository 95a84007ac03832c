import RingLock.Capacity
import RingLock.Fault
import RingLock.Text.Utf8

/-!
# Binary encoding

Values as bytes. Numbers have a fixed width and their lowest byte first. A list is its length in
eight bytes and then its items. A record is its fields in order. A decoder takes what it needs from
the front and returns what follows, so decoders compose like the values do.
-/
namespace RingLock

/-- Why bytes cannot be read. -/
inductive DecodeFault where
  | endOfInput
  /-- A text is announced to be longer than the input. -/
  | textTooLong
  | flag (found : UInt8)
  | optionTag (found : UInt8)
  | notUtf8 (flaw : Utf8.Flaw)
  | character
  | variant (found : UInt32) (count : Nat)
  /-- The room for a list of the announced length is more than any list can have. -/
  | capacity
  /-- The room for a list of the announced length is more than there is memory. -/
  | memory (room : Nat)
  /-- The announced length is not even tried: the reader gives up altogether. -/
  | unallocatable
  /-- There is no memory for a list of the announced length, and the program ends. -/
  | exhausted (length : Nat)
  /-- The value was read and then refused. -/
  | refused (fault : Fault)
  deriving DecidableEq

def DecodeFault.message : DecodeFault → String
  | endOfInput => "io error: unexpected end of file"
  | textTooLong => "io error: "
  | flag found => s!"invalid u8 while decoding bool, expected 0 or 1, found {found}"
  | optionTag found => s!"tag for enum is not valid, found {found}"
  | notUtf8 flaw => "string is not valid utf8: " ++ flaw.message
  | character => "char is not valid"
  | variant found count =>
    s!"invalid value: integer `{found}`, expected variant index 0 <= i < {count}"
  | capacity => "Allocation error: CapacityOverflow"
  | memory room =>
    "Allocation error: AllocErr \x7b layout: " ++
      s!"Layout \x7b size: {room}, align: 1 (1 << 0) \x7d \x7d"
  | unallocatable => "capacity overflow"
  | exhausted length => s!"memory allocation of {length} bytes failed"
  | refused fault => fault.message

/-- Takes a value from the front of the bytes. -/
abbrev Decoder (α : Type) := StateT (List UInt8) (Except DecodeFault) α

/-- Types with a binary form. -/
class Binary (α : Type) where
  encode : α → List UInt8
  decode : Decoder α

namespace Binary

/-- Reads a value and drops what follows. -/
def read {α : Type} [Binary α] (bytes : List UInt8) : Except DecodeFault α :=
  (decode.run bytes).map Prod.fst

/-- Ends the reading. -/
def fail {α : Type} (fault : DecodeFault) : Decoder α := fun _ => .error fault

/-- The next byte. -/
def byte : Decoder UInt8
  | [] => .error .endOfInput
  | b :: rest => .ok (b, rest)

/-- A number in `width` bytes, the lowest first. -/
def littleEndian : (width : Nat) → Nat → List UInt8
  | 0, _ => []
  | width + 1, n => UInt8.ofNat n :: littleEndian width (n / 256)

/-- The number in the next `width` bytes. -/
def number : (width : Nat) → Decoder Nat
  | 0 => pure 0
  | width + 1 => do
    let low ← byte
    let high ← number width
    return low.toNat + 256 * high

/-- So many values in a row, gathered in reverse. -/
def gather {α : Type} (item : Decoder α) : (count : Nat) → List α → Decoder (List α)
  | 0, got, bytes => .ok (got.reverse, bytes)
  | count + 1, got, bytes =>
    match item bytes with
    | .error fault => .error fault
    | .ok (x, rest) => gather item count (x :: got) rest

/-- So many values in a row. -/
def many {α : Type} (item : Decoder α) (count : Nat) : Decoder (List α) := gather item count []

instance : Binary UInt8 where
  encode n := [n]
  decode := byte

instance : Binary UInt16 where
  encode n := littleEndian 2 n.toNat
  decode := UInt16.ofNat <$> number 2

instance : Binary UInt32 where
  encode n := littleEndian 4 n.toNat
  decode := UInt32.ofNat <$> number 4

instance : Binary UInt64 where
  encode n := littleEndian 8 n.toNat
  decode := UInt64.ofNat <$> number 8

instance : Binary (BitVec 128) where
  encode n := littleEndian 16 n.toNat
  decode := BitVec.ofNat 128 <$> number 16

/-- A signed number is written as the word with the same bits. -/
instance : Binary Int64 where
  encode n := encode n.toUInt64
  decode := UInt64.toInt64 <$> decode

instance : Binary Bool where
  encode b := [if b then 1 else 0]
  decode := do
    let b ← byte
    if b = 0 then return false
    else if b = 1 then return true
    else fail (.flag b)

/-- A character is its UTF-8 form, without a length. -/
instance : Binary Char where
  encode c := String.utf8EncodeChar c
  decode
    | [] => .error .endOfInput
    | first :: rest =>
      match Utf8.character first rest with
      | .error _ => .error .character
      | .ok (c, more) => .ok (c, rest.drop more)

/-- The length of a list, in eight bytes. -/
def encodeLength (n : Nat) : List UInt8 := encode (UInt64.ofNat n)

def decodeLength : Decoder Nat := UInt64.toNat <$> decode

/-- The next bytes, as many as announced. -/
def bytes (count : Nat) : Decoder (List UInt8) := fun bytes =>
  let taken := bytes.take count
  if taken.length = count then .ok (taken, bytes.drop count) else .error .textTooLong

instance : Binary String where
  encode s := let bytes := Utf8.encode s; encodeLength bytes.length ++ bytes
  decode := do
    let length ← decodeLength
    let text ← bytes length
    match Utf8.decode text with
    | .ok s => return s
    | .error flaw => fail (.notUtf8 flaw)

instance {α : Type} [Binary α] : Binary (List α) where
  encode xs := encodeLength xs.length ++ xs.flatMap encode
  decode := do
    let length ← decodeLength
    many decode length

instance {α : Type} [Binary α] : Binary (Option α) where
  encode
    | none => [0]
    | some x => 1 :: encode x
  decode := do
    let tag ← byte
    if tag = 0 then return none
    else if tag = 1 then some <$> decode
    else fail (.optionTag tag)

/-- A list of bytes for which room is made before any is read. -/
def decodeRoomy : Decoder (List UInt8) := do
  let length ← decodeLength
  if capacity ≤ room length then fail .capacity
  else if memory ≤ room length then fail (.memory (room length))
  else many byte length

/-- A list of bytes for which exactly enough room is made before any is read. The reader does not
survive if there is none. -/
def decodeReserved : Decoder (List UInt8) := do
  let length ← decodeLength
  if capacity ≤ length then fail .unallocatable
  else if memory ≤ length then fail (.exhausted length)
  else many byte length

@[simp] theorem length_littleEndian (width n : Nat) : (littleEndian width n).length = width := by
  induction width generalizing n with
  | zero => rfl
  | succ width ih => simp [littleEndian, ih]

/-- Reading a number gives back what was written, up to the width, and leaves the rest. -/
theorem number_littleEndian (width n : Nat) (rest : List UInt8) :
    (number width).run (littleEndian width n ++ rest) = .ok (n % Nat.pow 256 width, rest) := by
  induction width generalizing n with
  | zero => simp [number, littleEndian, Nat.mod_one]; rfl
  | succ width ih =>
    have split : n % 256 + 256 * (n / 256 % Nat.pow 256 width) = n % Nat.pow 256 (width + 1) := by
      rw [show Nat.pow 256 (width + 1) = 256 * Nat.pow 256 width from Nat.pow_succ', Nat.mod_mul]
    simp only [number, littleEndian, List.cons_append, StateT.run_bind]
    show (do
      let r ← (number width).run (littleEndian width (n / 256) ++ rest)
      StateT.run (pure ((UInt8.ofNat n).toNat + 256 * r.1)) r.2 : Except DecodeFault _) = _
    rw [ih]
    simp only [bind, Except.bind, UInt8.toNat_ofNat', pure]
    exact congrArg (fun m => Except.ok (m, rest)) split

end Binary

end RingLock
