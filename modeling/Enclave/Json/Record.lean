import Enclave.Data.SortedMap
import Enclave.Json.Range
import Enclave.Json.Reader

/-!
# Enclave.Json.Record

Values out of JSON documents. A record is given by the names of its fields, in any order, or by its
fields alone, in the order they are declared; members with other names are skipped.
-/

namespace Enclave

namespace Json

inductive DecodeError where
  | malformed
  | expected (what : String)
  | missing (field : String)
  | repeated (field : String)
  | outOfRange
  | tooManyFields
  | tooDeep
deriving DecidableEq, Repr

namespace DecodeError

def message : DecodeError → String
  | .malformed => "not a JSON document"
  | .expected what => s!"expected {what}"
  | .missing field => s!"missing field {field}"
  | .repeated field => s!"repeated field {field}"
  | .outOfRange => "number out of range"
  | .tooManyFields => "too many fields"
  | .tooDeep => "nested too deeply"

end DecodeError

abbrev Decoded (α : Type) := Except DecodeError α

/-- How deeply values that are kept whole may be nested. -/
def maxDepth : Nat := 127

/-- A value that is kept whole, found under `depth` arrays and objects. -/
def keep (depth : Nat) (j : Json) : Decoded Json :=
  if maxDepth < depth + j.depth then .error .tooDeep
  else if j.isSound fitsDouble then .ok j
  else .error .malformed

def asText : Json → Decoded String
  | .str (some s) => .ok s
  | _ => .error (.expected "a string")

def asBool : Json → Decoded Bool
  | .bool b => .ok b
  | _ => .error (.expected "a boolean")

/-- An integer from `low` up to but not including `high`. -/
def asInt (low high : Int) : Json → Decoded Int
  | .int z => if low ≤ z ∧ z < high then .ok z else .error .outOfRange
  | _ => .error (.expected "an integer")

def asUInt32 (j : Json) : Decoded UInt32 := do return .ofNat (← asInt 0 4294967296 j).toNat

def asUInt64 (j : Json) : Decoded UInt64 := do
  return .ofNat (← asInt 0 18446744073709551616 j).toNat

def asInt32 (j : Json) : Decoded Int32 := do return .ofInt (← asInt (-2147483648) 2147483648 j)

def asList {α : Type} (f : Json → Decoded α) : Json → Decoded (List α)
  | .arr items => items.mapM f
  | _ => .error (.expected "an array")

def asTexts (j : Json) : Decoded (List String) := asList asText j

def asTextPair : Json → Decoded (String × String)
  | .arr [a, b] => do return (← asText a, ← asText b)
  | _ => .error (.expected "a pair")

def asOption {α : Type} (f : Json → Decoded α) : Json → Decoded (Option α)
  | .null => .ok none
  | j => do return some (← f j)

def namedMembers : List (Option String × Json) → Decoded (List (String × Json))
  | [] => .ok []
  | (some name, j) :: ms => do return (name, j) :: (← namedMembers ms)
  | (none, _) :: _ => .error .malformed

/-- A map by name; of members with one name the last counts. -/
def asMap {α : Type} (f : Json → Decoded α) : Json → Decoded (SortedMap String α)
  | .obj members => do
    let entries ← (← namedMembers members).mapM fun m => do return (m.1, ← f m.2)
    return .ofList entries
  | _ => .error (.expected "an object")

/-- The names under which a field may stand, its own first. -/
structure FieldNames where
  name : String
  aliases : List String := []

abbrev Record := List (String × Json)

def namedField (members : List (String × Json)) (field : FieldNames) : Decoded Record :=
  match members.filter fun m => m.1 == field.name || field.aliases.contains m.1 with
  | [] => .ok []
  | [m] => .ok [(field.name, m.2)]
  | _ => .error (.repeated field.name)

def recordOfMembers (fields : List FieldNames) (members : List (Option String × Json)) :
    Decoded Record := do
  let members ← namedMembers members
  return (← fields.mapM (namedField members)).flatten

def recordOfItems (fields : List FieldNames) (items : List Json) : Decoded Record :=
  if fields.length < items.length then .error .tooManyFields
  else .ok ((fields.map (·.name)).zip items)

def asRecord (fields : List FieldNames) : Json → Decoded Record
  | .obj members => recordOfMembers fields members
  | .arr items => recordOfItems fields items
  | _ => .error (.expected "a record")

def fieldsNamed (names : List String) : List FieldNames := names.map ({ name := · })

namespace Record

def required {α : Type} (r : Record) (name : String) (f : Json → Decoded α) : Decoded α :=
  match r.lookup name with
  | some j => f j
  | none => .error (.missing name)

def orElse {α : Type} (r : Record) (name : String) (default : α) (f : Json → Decoded α) :
    Decoded α :=
  match r.lookup name with
  | some j => f j
  | none => .ok default

/-- A field that may be missing or null. -/
def optional {α : Type} (r : Record) (name : String) (f : Json → Decoded α) :
    Decoded (Option α) :=
  r.orElse name none (asOption f)

end Record

def decode {α : Type} (f : Json → Decoded α) (s : String) : Decoded α :=
  match read s with
  | some j => f j
  | none => .error .malformed

end Json

end Enclave
