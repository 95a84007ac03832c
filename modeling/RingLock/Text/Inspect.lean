/-!
# Inspection text

The text that names a value inside a message. Numbers are written plainly. Texts and characters
stand in their own quotes, and whatever would break the line or the quotes is escaped.
-/
namespace RingLock

/-- Values that a message can name. -/
class Inspect (α : Type) where
  inspect : α → String

export Inspect (inspect)

namespace Text

/-- The digits of a code point in base sixteen, without leading zeros. -/
def hexDigits (n : Nat) : String := String.ofList (Nat.toDigits 16 n)

/-- The control characters are the code points below the blank and those from 127 to 159. -/
def isControl (c : Char) : Bool := c.toNat < 0x20 || (0x7f ≤ c.toNat && c.toNat ≤ 0x9f)

/-- A character between quotes `own`. The other kind of quote needs no escape. -/
def escape (own c : Char) : String :=
  match c with
  | '\x00' => "\\0"
  | '\t' => "\\t"
  | '\r' => "\\r"
  | '\n' => "\\n"
  | '\\' => "\\\\"
  | _ =>
    if c = own then "\\" ++ own.toString
    else if isControl c then "\\u\x7b" ++ hexDigits c.toNat ++ "\x7d"
    else c.toString

/-- A text in double quotes. -/
def quoted (s : String) : String :=
  s.foldl (fun out c => out ++ escape '"' c) "\"" ++ "\""

/-- A character in single quotes. -/
def quotedChar (c : Char) : String := "'" ++ escape '\'' c ++ "'"

/-- Items between brackets, separated by a comma and a blank. -/
def bracketed (items : List String) : String := "[" ++ ", ".intercalate items ++ "]"

end Text

instance : Inspect Nat := ⟨toString⟩
instance : Inspect UInt8 := ⟨toString⟩
instance : Inspect UInt16 := ⟨toString⟩
instance : Inspect UInt32 := ⟨toString⟩
instance : Inspect UInt64 := ⟨toString⟩
instance : Inspect Int64 := ⟨toString⟩
instance : Inspect String := ⟨Text.quoted⟩
instance : Inspect Char := ⟨Text.quotedChar⟩

instance {α : Type} [Inspect α] : Inspect (List α) := ⟨fun xs => Text.bracketed (xs.map inspect)⟩

end RingLock
