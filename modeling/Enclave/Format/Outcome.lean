import Enclave.Json.Printer
import Enclave.Format.Source
import Enclave.Partition.Outcome

/-!
# Enclave.Format.Outcome

Outcomes as JSON. An outcome is tagged by a member `result`. Topologies are also read under the
older names of two of their fields.
-/

namespace Enclave

open Json

namespace Placement

def toJson (p : Placement) : Json :=
  .object [("name", .text p.name), ("level", .text p.level), ("line", .text p.line)]

def ofJson (j : Json) : Decoded Placement := do
  let r ← asRecord (fieldsNamed ["name", "level", "line"]) j
  return ⟨← r.required "name" asText, ← r.required "level" asText, ← r.required "line" asText⟩

end Placement

namespace Topology

def toJson (t : Topology) : Json :=
  .object ([("sourcePath", .text t.sourcePath), ("levels", texts t.levels),
    ("globalScopedVars", list (·.toJson) t.globals), ("functions", list (·.toJson) t.functions)] ++
    if t.defaulted.isEmpty then [] else [("defaulted", texts t.defaulted)])

def fields : List FieldNames :=
  [⟨"sourcePath", ["source_path"]⟩, ⟨"levels", []⟩, ⟨"globalScopedVars", ["global_scoped_vars"]⟩,
    ⟨"functions", []⟩, ⟨"defaulted", []⟩]

def ofJson (j : Json) : Decoded Topology := do
  let r ← asRecord fields j
  return {
    sourcePath := ← r.required "sourcePath" asText
    levels := ← r.required "levels" asTexts
    globals := ← r.required "globalScopedVars" (asList Placement.ofJson)
    functions := ← r.required "functions" (asList Placement.ofJson)
    defaulted := ← r.orElse "defaulted" [] asTexts }

def fileText (t : Topology) : String := t.toJson.pretty ++ "\n"

end Topology

namespace ConflictKind

def toJson (k : ConflictKind) : Json := .text k.title

def ofTitle (s : String) : Decoded ConflictKind :=
  match ofTitle? s with
  | some k => .ok k
  | none => .error (.expected "a kind of conflict")

/-- A kind is its title, or an object with nothing under the title. -/
def ofJson : Json → Decoded ConflictKind
  | .str (some s) => ofTitle s
  | .obj [(some s, .null)] => ofTitle s
  | .obj [(some s, .obj [])] => ofTitle s
  | _ => .error (.expected "a kind of conflict")

end ConflictKind

namespace Conflict

def toJson (c : Conflict) : Json :=
  .object [("name", c.kind.toJson), ("description", .text c.description),
    ("sources", list (·.toJson) c.sources), ("remedies", texts c.remedies)]

def ofJson (j : Json) : Decoded Conflict := do
  let r ← asRecord (fieldsNamed ["name", "description", "sources", "remedies"]) j
  return {
    kind := ← r.required "name" ConflictKind.ofJson
    description := ← r.required "description" asText
    sources := ← r.required "sources" (asList (Source.ofJson 0))
    remedies := ← r.orElse "remedies" [] asTexts }

end Conflict

namespace Problem

def toJson (p : Problem) : Json :=
  .object [("errno", .int p.errno.toInt), ("errMessage", .text p.title),
    ("customMessage", .text p.detail)]

def ofJson (j : Json) : Decoded Problem := do
  let r ← asRecord (fieldsNamed ["errno", "errMessage", "customMessage"]) j
  return ⟨← r.required "errno" asInt32, ← r.required "errMessage" asText,
    ← r.required "customMessage" asText⟩

end Problem

namespace Outcome

def toJson (o : Outcome) : Json :=
  .object [("result", .text o.tag),
    match o with
    | .success topology => ("topology", topology.toJson)
    | .conflict conflicts => ("conflicts", list (·.toJson) conflicts)
    | .failure problems => ("errors", list (·.toJson) problems)]

/-- The outcome that a tag announces, out of the rest of the document. -/
def ofTagged (tag : String) (rest : List FieldNames → Decoded Record) : Decoded Outcome := do
  match tag with
  | "Success" =>
    let r ← rest (fieldsNamed ["topology"])
    return .success (← r.required "topology" Topology.ofJson)
  | "Conflict" =>
    let r ← rest (fieldsNamed ["conflicts"])
    return .conflict (← r.required "conflicts" (asList Conflict.ofJson))
  | "Error" =>
    let r ← rest (fieldsNamed ["errors"])
    return .failure (← r.required "errors" (asList Problem.ofJson))
  | _ => throw (.expected "a result tag")

def ofJson (j : Json) : Decoded Outcome := do
  match ← keep 0 j with
  | .obj members =>
    let r ← recordOfMembers (fieldsNamed ["result"]) members
    ofTagged (← r.required "result" asText) fun fields => recordOfMembers fields members
  | .arr (tag :: items) => ofTagged (← asText tag) fun fields => recordOfItems fields items
  | _ => throw (.expected "a result")

end Outcome

end Enclave
