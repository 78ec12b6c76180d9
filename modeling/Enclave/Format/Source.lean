import Enclave.Json.Record
import Enclave.Source.Location

/-!
# Enclave.Format.Source

Places as JSON. A place is an object with a file and a range, or with a file, a line and perhaps a
character; where both shapes fit, the range counts.
-/

namespace Enclave

open Json

namespace Position

def toJson (p : Position) : Json :=
  .object [("line", .nat p.line.toNat), ("character", .nat p.character.toNat)]

def ofJson (j : Json) : Decoded Position := do
  let r ← asRecord (fieldsNamed ["line", "character"]) j
  return ⟨← r.required "line" asUInt32, ← r.required "character" asUInt32⟩

end Position

namespace TextRange

def toJson (r : TextRange) : Json := .object [("start", r.start.toJson), ("end", r.stop.toJson)]

def ofJson (j : Json) : Decoded TextRange := do
  let r ← asRecord (fieldsNamed ["start", "end"]) j
  return ⟨← r.required "start" Position.ofJson, ← r.required "end" Position.ofJson⟩

end TextRange

namespace Source

def toJson : Source → Json
  | .range file r => .object [("file", .text file), ("range", r.toJson)]
  | .line file n character =>
    .object ([("file", .text file), ("line", .nat n.toNat)] ++
      member? "character" (.nat ·.toNat) character)

def rangeOfMembers (members : List (Option String × Json)) : Decoded Source := do
  let r ← recordOfMembers (fieldsNamed ["file", "range"]) members
  return .range (← r.required "file" asText) (← r.required "range" TextRange.ofJson)

def lineOfMembers (members : List (Option String × Json)) : Decoded Source := do
  let r ← recordOfMembers (fieldsNamed ["file", "line", "character"]) members
  return .line (← r.required "file" asText) (← r.required "line" asUInt32)
    (← r.optional "character" asUInt32)

/-- A place found under `depth` arrays and objects. -/
def ofJson (depth : Nat) (j : Json) : Decoded Source := do
  match ← keep depth j with
  | .obj members =>
    match rangeOfMembers members with
    | .ok source => return source
    | .error _ => lineOfMembers members
  | _ => throw (.expected "a source location")

end Source

end Enclave
