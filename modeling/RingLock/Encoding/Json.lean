import RingLock.Decimal.Layout
import RingLock.Text.Inspect

/-!
# JSON values

The tree of a JSON text, and its compact form. Numbers without fraction and exponent are integers of
any size. All others are decimals, and so is the negative zero. A quoted text whose escapes spell no
Unicode text has no value, but is a text all the same. A record keeps its fields in the order of the
text, repeated ones too.
-/
namespace RingLock

inductive Json where
  | null
  | bool (b : Bool)
  | integer (n : Int)
  /-- A number with a fraction or an exponent, and also `-0`. -/
  | decimal (d : Decimal)
  | text (value : Option String)
  | list (items : List Json)
  | record (fields : List (Option String × Json))

namespace Json

instance : Inhabited Json := ⟨.null⟩

/-- A record with given names. -/
def ofFields (fields : List (String × Json)) : Json :=
  .record (fields.map fun f => (some f.1, f.2))

/-- One character between quotes. Control characters are written by their code. -/
def escape (c : Char) : List Char :=
  match c with
  | '"' => ['\\', '"']
  | '\\' => ['\\', '\\']
  | '\n' => ['\\', 'n']
  | '\r' => ['\\', 'r']
  | '\t' => ['\\', 't']
  | '\x08' => ['\\', 'b']
  | '\x0c' => ['\\', 'f']
  | _ =>
    if c.toNat < 0x20 then
      ['\\', 'u', '0', '0', Nat.digitChar (c.toNat / 16), Nat.digitChar (c.toNat % 16)]
    else [c]

/-- A text in quotes. -/
def quote (s : String) : List Char := '"' :: (s.toList.flatMap escape ++ ['"'])

/-- The text of a decimal with all its digits. The exponent tells it from an integer. -/
def literal (d : Decimal) : List Char :=
  (if d.negative then ['-'] else []) ++ (toString d.digits).toList ++ 'e' ::
    (toString d.exponent).toList

mutual

/-- The compact text of a value: no blanks. -/
def render : Json → List Char
  | .null => "null".toList
  | .bool b => (toString b).toList
  | .integer n => (toString n).toList
  | .decimal d => literal d
  | .text value => quote (value.getD "")
  | .list items => '[' :: renderItems items
  | .record fields => '\x7b' :: renderFields fields

/-- The items of a list, and its end. -/
def renderItems : List Json → List Char
  | [] => [']']
  | [x] => render x ++ [']']
  | x :: rest => render x ++ ',' :: renderItems rest

/-- The fields of a record, and its end. -/
def renderFields : List (Option String × Json) → List Char
  | [] => ['\x7d']
  | [(name, x)] => quote (name.getD "") ++ ':' :: render x ++ ['\x7d']
  | (name, x) :: rest => quote (name.getD "") ++ ':' :: render x ++ ',' :: renderFields rest

end

instance : ToString Json := ⟨fun j => String.ofList j.render⟩

/-- Whether an integer is a signed or an unsigned word of 64 bits. Every other one counts as a float
where a word is wanted. -/
def isWord (n : Int) : Bool := Int64.minValue.toInt ≤ n && n < UInt64.size

/-- Floats from a hundred-thousandth up to 16 places before the point are written without an
exponent. -/
def floatLayout : Decimal.Layout := ⟨-5, 15⟩

/-- The float that a number is read as, with the fewest digits that tell it from other floats. -/
def floatText (d : Decimal) : String :=
  match Decimal.ofFloat? d.toFloat with
  | some shortest => String.ofList (floatLayout.write shortest)
  | none => if d.negative then "-inf" else "inf"

/-- How a message speaks of a value. -/
def describe : Json → String
  | .null => "null"
  | .bool b => s!"boolean `{b}`"
  | .integer n =>
    if isWord n then s!"integer `{n}`" else s!"floating point `{floatText (.ofInt n)}`"
  | .decimal d => s!"floating point `{floatText d}`"
  | .text value => "string " ++ inspect (value.getD "")
  | .list _ => "sequence"
  | .record _ => "map"

end Json

end RingLock
