/-!
# Strict UTF-8

Reads bytes as characters. A character takes one to four bytes. The second byte is bounded more
narrowly after some first bytes, which rules out long forms, surrogates and code points that are too
large. A flaw names the place of the first character that cannot be read, and how many bytes belong
to it: as many as could begin a character, or an unknown number if the text ends too early.
-/
namespace RingLock.Utf8

/-- Where a text stops being readable. -/
structure Flaw where
  start : Nat
  length : Option Nat
  deriving DecidableEq

def Flaw.message (f : Flaw) : String :=
  match f.length with
  | some n => s!"invalid utf-8 sequence of {n} bytes from index {f.start}"
  | none => s!"incomplete utf-8 byte sequence from index {f.start}"

/-- Whether a byte continues a character. -/
def continues (b : UInt8) : Bool := 0x80 ≤ b && b ≤ 0xbf

/-- What may follow the first byte of a character of three or four bytes. -/
def allowsSecond (first second : UInt8) : Bool :=
  if first = 0xe0 then 0xa0 ≤ second && second ≤ 0xbf
  else if first = 0xed then 0x80 ≤ second && second ≤ 0x9f
  else if first = 0xf0 then 0x90 ≤ second && second ≤ 0xbf
  else if first = 0xf4 then 0x80 ≤ second && second ≤ 0x8f
  else continues second

/-- The payload of a continuing byte. -/
def payload (b : UInt8) : Nat := b.toNat % 64

/-- The character that begins with `first`, and how many of the bytes after it belong to it. On
failure, how many bytes belong to the flaw. -/
def character (first : UInt8) (rest : List UInt8) : Except (Option Nat) (Char × Nat) :=
  if first < 0x80 then .ok (Char.ofNat first.toNat, 0)
  else if 0xc2 ≤ first ∧ first ≤ 0xdf then
    match rest with
    | [] => .error none
    | b :: _ =>
      if continues b then .ok (Char.ofNat (first.toNat % 32 * 64 + payload b), 1)
      else .error (some 1)
  else if 0xe0 ≤ first ∧ first ≤ 0xef then
    match rest with
    | [] => .error none
    | b :: rest =>
      if !allowsSecond first b then .error (some 1)
      else match rest with
        | [] => .error none
        | c :: _ =>
          if continues c then
            .ok (Char.ofNat ((first.toNat % 16 * 64 + payload b) * 64 + payload c), 2)
          else .error (some 2)
  else if 0xf0 ≤ first ∧ first ≤ 0xf4 then
    match rest with
    | [] => .error none
    | b :: rest =>
      if !allowsSecond first b then .error (some 1)
      else match rest with
        | [] => .error none
        | c :: rest =>
          if !continues c then .error (some 2)
          else match rest with
            | [] => .error none
            | d :: _ =>
              if continues d then
                .ok (Char.ofNat (((first.toNat % 8 * 64 + payload b) * 64 + payload c) * 64 +
                  payload d), 3)
              else .error (some 3)
  else .error (some 1)

/-- The characters of the bytes from place `start` of a text on. -/
def decodeFrom (start : Nat) (bytes : List UInt8) : Except Flaw (List Char) :=
  match bytes with
  | [] => .ok []
  | first :: rest =>
    match character first rest with
    | .error length => .error ⟨start, length⟩
    | .ok (c, more) => (decodeFrom (start + 1 + more) (rest.drop more)).map (c :: ·)
termination_by bytes.length
decreasing_by simp only [List.length_cons, List.length_drop]; omega

/-- The text of some bytes. -/
def decode (bytes : List UInt8) : Except Flaw String := (decodeFrom 0 bytes).map String.ofList

/-- The bytes of a text. -/
def encode (s : String) : List UInt8 := s.toList.flatMap String.utf8EncodeChar

@[simp] theorem decode_nil : decode [] = .ok "" := by
  simp [decode, decodeFrom, Except.map]

@[simp] theorem encode_empty : encode "" = [] := rfl

end RingLock.Utf8
