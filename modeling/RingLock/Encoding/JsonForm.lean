import RingLock.Encoding.Json
import RingLock.Encoding.JsonText
import RingLock.Encoding.Values

/-!
# JSON forms of the puzzle's values

Every value that is stored or sent, as a JSON value. Records are written field by field in their
order. They are read in any order, and also as a plain list of their fields. Unknown fields are
passed over, missing and repeated ones are refused. A type of one number or one list is written as
that number or list alone.
-/
namespace RingLock

/-- Why a JSON value has not the form of a type. -/
inductive FormFault where
  | missing (field : String)
  | repeated (field : String)
  /-- A field name that spells no text. -/
  | fieldName
  | wrongType (found expected : String)
  | wrongValue (found expected : String)
  | wrongLength (found : Nat) (expected : String)
  | unknownVariant (found : String) (known : List String)
  /-- The value was read and then refused. -/
  | refused (fault : Fault)

def FormFault.message : FormFault → String
  | missing field => s!"missing field `{field}`"
  | repeated field => s!"duplicate field `{field}`"
  | fieldName => "lone leading surrogate in hex escape"
  | wrongType found expected => s!"invalid type: {found}, expected {expected}"
  | wrongValue found expected => s!"invalid value: {found}, expected {expected}"
  | wrongLength found expected => s!"invalid length {found}, expected {expected}"
  | unknownVariant found known =>
    s!"unknown variant `{found}`, expected one of " ++
      ", ".intercalate (known.map fun name => s!"`{name}`")
  | refused fault => fault.message

/-- Types with a JSON form. -/
class JsonForm (α : Type) where
  toJson : α → Json
  ofJson : Json → Except FormFault α

export JsonForm (toJson ofJson)

namespace JsonForm

/-- The text of a value. -/
def write {α : Type} [JsonForm α] (x : α) : String := toString (toJson x)

/-- The value of a text. `none`: not JSON at all. -/
def read {α : Type} [JsonForm α] (s : String) : Option (Except FormFault α) :=
  (JsonText.parse? s).map ofJson

/-- A number below a limit, of a type that messages call `name`. -/
def bounded (name : String) (limit : Nat) (j : Json) : Except FormFault Nat :=
  match j with
  | .integer n =>
    if 0 ≤ n ∧ n < limit then .ok n.toNat
    else if Json.isWord n then .error (.wrongValue j.describe name)
    else .error (.wrongType j.describe name)
  | _ => .error (.wrongType j.describe name)

/-- Whether a value has the form of a type. -/
def accepts (α : Type) [JsonForm α] (j : Json) : Except FormFault Unit :=
  (ofJson j : Except FormFault α).map fun _ => ()

/-- The name of a field and the check of its value. -/
abbrev Field := String × (Json → Except FormFault Unit)

/-- The fields of a record by name, each checked in the order of the text. -/
def named (known : List Field) :
    List (String × Json) → List (Option String × Json) → Except FormFault (List (String × Json))
  | got, [] => .ok got
  | _, (none, _) :: _ => .error .fieldName
  | got, (some name, j) :: rest =>
    match known.lookup name with
    | none => named known got rest
    | some check =>
      if (got.lookup name).isSome then .error (.repeated name)
      else do
        check j
        named known ((name, j) :: got) rest

/-- The fields of a record by place, each checked in turn. -/
def placed (owner : String) (length total : Nat) :
    List Field → List Json → Except FormFault (List (String × Json))
  | [], [] => .ok []
  | [], _ :: _ => .error (.wrongLength length "fewer elements in array")
  | _ :: _, [] => .error (.wrongLength length s!"{owner} with {total} elements")
  | (name, check) :: known, j :: rest => do
    check j
    let got ← placed owner length total known rest
    return (name, j) :: got

/-- The fields of a record, read from either of its forms. -/
def fieldsOf (owner : String) (known : List Field) :
    Json → Except FormFault (List (String × Json))
  | .record fields => named known [] fields
  | .list items => placed owner items.length known.length known items
  | j => .error (.wrongType j.describe owner)

/-- The value of one field. -/
def field {α : Type} [JsonForm α] (got : List (String × Json)) (name : String) :
    Except FormFault α :=
  match got.lookup name with
  | some j => ofJson j
  | none => .error (.missing name)

instance : JsonForm UInt8 where
  toJson n := .integer n.toNat
  ofJson j := (bounded "u8" UInt8.size j).map UInt8.ofNat

instance : JsonForm UInt32 where
  toJson n := .integer n.toNat
  ofJson j := (bounded "u32" UInt32.size j).map UInt32.ofNat

instance : JsonForm UInt64 where
  toJson n := .integer n.toNat
  ofJson j := (bounded "u64" UInt64.size j).map UInt64.ofNat

instance : JsonForm (BitVec 128) where
  toJson n := .integer n.toNat
  ofJson j := (bounded "u128" (1 <<< 128) j).map (BitVec.ofNat 128)

instance : JsonForm Bool where
  toJson b := .bool b
  ofJson
    | .bool b => .ok b
    | j => .error (.wrongType j.describe "a boolean")

instance {α : Type} [JsonForm α] : JsonForm (List α) where
  toJson xs := .list (xs.map toJson)
  ofJson
    | .list items => items.mapM ofJson
    | j => .error (.wrongType j.describe "a sequence")

instance : JsonForm Config where
  toJson c := .ofFields
    [("holes", toJson c.holes), ("hand", toJson c.hand), ("colors", toJson c.colors),
      ("seed", toJson c.seed)]
  ofJson j := do
    let got ← fieldsOf "a configuration"
      [("holes", accepts UInt64), ("hand", accepts UInt64), ("colors", accepts UInt64),
        ("seed", accepts UInt64)] j
    let holes ← field got "holes"
    let hand ← field got "hand"
    let colors ← field got "colors"
    let seed ← field got "seed"
    return { holes, hand, colors, seed }

instance : JsonForm Checkpoint where
  toJson c := .ofFields
    [("seed", toJson c.seed), ("word_pos", toJson c.wordPos), ("fork_counter", toJson c.forks)]
  ofJson j := do
    let got ← fieldsOf "a checkpoint"
      [("seed", accepts UInt64), ("word_pos", accepts (BitVec 128)),
        ("fork_counter", accepts UInt64)] j
    let seed ← field got "seed"
    let wordPos ← field got "word_pos"
    let forks ← field got "fork_counter"
    return { seed, wordPos, forks }

instance : JsonForm Stats where
  toJson s := .ofFields
    [("iterations", toJson s.iterations), ("cpre_calls", toJson s.predecessorCalls),
      ("initial_size", toJson s.initialSize), ("final_size", toJson s.finalSize),
      ("time_us", toJson s.micros)]
  ofJson j := do
    let got ← fieldsOf "statistics"
      [("iterations", accepts UInt32), ("cpre_calls", accepts UInt32),
        ("initial_size", accepts UInt64), ("final_size", accepts UInt64),
        ("time_us", accepts UInt64)] j
    let iterations ← field got "iterations"
    let predecessorCalls ← field got "cpre_calls"
    let initialSize ← field got "initial_size"
    let finalSize ← field got "final_size"
    let micros ← field got "time_us"
    return { iterations, predecessorCalls, initialSize, finalSize, micros }

/-- The phase of a name. -/
def phaseOf (name : String) : Except FormFault Phase :=
  match Phase.all.find? fun p => p.name == name with
  | some p => .ok p
  | none => .error (.unknownVariant name (Phase.all.map Phase.name))

/-- A phase is written by its name. A record whose one field has that name and the value `null` is
read as well. -/
instance : JsonForm Phase where
  toJson p := .text (some p.name)
  ofJson
    | .text (some name) => phaseOf name
    | .record [(some name, .null)] => phaseOf name
    | j => .error (.wrongType j.describe "a phase")

instance : JsonForm Hand where
  toJson h := toJson h.holes
  ofJson j := (ofJson j).map Hand.mk

instance : JsonForm Packed where
  toJson c := toJson c.bits
  ofJson j := (ofJson j).map Packed.mk

instance : JsonForm Listed where
  toJson c := toJson c.colors
  ofJson j := (ofJson j).map Listed.mk

instance {C : Type} [JsonForm C] : JsonForm (Position C) where
  toJson p := .ofFields [("coloring", toJson p.coloring), ("selection", toJson p.hand)]
  ofJson j := do
    let got ← fieldsOf "a position" [("coloring", accepts C), ("selection", accepts Hand)] j
    let coloring ← field got "coloring"
    let hand ← field got "selection"
    return { coloring, hand }

instance : JsonForm Ring where
  toJson r := .ofFields [("colors", toJson r.colors), ("palette", toJson r.palette)]
  ofJson j := do
    let got ← fieldsOf "struct RawLockState"
      [("colors", accepts (List UInt8)), ("palette", accepts UInt8)] j
    let colors ← field got "colors"
    let palette ← field got "palette"
    match (Ring.mk colors palette).check with
    | .ok r => return r
    | .error fault => .error (.refused fault)

instance : JsonForm Region where
  toJson r := .ofFields [("members", toJson r.members.toList), ("count", toJson r.count)]
  ofJson j := do
    let got ← fieldsOf "a region"
      [("members", accepts (List Bool)), ("count", accepts UInt64)] j
    let members : List Bool ← field got "members"
    let count ← field got "count"
    return { members := members.toArray, count }

end JsonForm

end RingLock
