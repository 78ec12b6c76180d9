import Enclave.Format.Source
import Enclave.Level.Lattice
import Enclave.Program.Declared
import Enclave.Propagation.Budget

/-!
# Enclave.Format.Program

The files of a program and the settings of an analysis as JSON. Fields without a value are left out
when they are written, and may be missing when they are read.
-/

namespace Enclave

open Json

namespace TaintDecl

def toJson (t : TaintDecl) : Json :=
  .object (member? "returnTaint" texts t.returns ++ member? "argTaints" texts t.arguments ++
    member? "codeTaint" texts t.code)

def ofJson (j : Json) : Decoded TaintDecl := do
  let r ← asRecord (fieldsNamed ["returnTaint", "argTaints", "codeTaint"]) j
  return ⟨← r.optional "returnTaint" asTexts, ← r.optional "argTaints" asTexts,
    ← r.optional "codeTaint" asTexts⟩

end TaintDecl

namespace ElementDecl

def toJson (e : ElementDecl) : Json :=
  .object (member? "level" text e.level ++ member? "taint" (·.toJson) e.taint ++
    member? "location" (·.toJson) e.location)

def ofJson (depth : Nat) (j : Json) : Decoded ElementDecl := do
  let r ← asRecord (fieldsNamed ["level", "taint", "location"]) j
  return ⟨← r.optional "level" asText, ← r.optional "taint" TaintDecl.ofJson,
    ← r.optional "location" (Source.ofJson (depth + 1))⟩

end ElementDecl

namespace LabelDecls

def elementsToJson (m : SortedMap String ElementDecl) : Json :=
  .object (m.toList.map fun e => (e.1, e.2.toJson))

def toJson (d : LabelDecls) : Json :=
  .object (member? "levels" texts d.levels ++
    [("functions", elementsToJson d.functions), ("globals", elementsToJson d.globals)])

def ofJson (depth : Nat) (j : Json) : Decoded LabelDecls := do
  let r ← asRecord (fieldsNamed ["levels", "functions", "globals"]) j
  return ⟨← r.optional "levels" asTexts,
    ← r.orElse "functions" ∅ (asMap (ElementDecl.ofJson (depth + 2))),
    ← r.orElse "globals" ∅ (asMap (ElementDecl.ofJson (depth + 2)))⟩

end LabelDecls

namespace Declaration

def toJson (d : Declaration) : Json :=
  .object ([("name", .text d.name)] ++ member? "location" (·.toJson) d.location)

def ofJson (depth : Nat) (j : Json) : Decoded Declaration := do
  let r ← asRecord (fieldsNamed ["name", "location"]) j
  return ⟨← r.required "name" asText, ← r.optional "location" (Source.ofJson (depth + 1))⟩

end Declaration

namespace CallDecl

def toJson (c : CallDecl) : Json :=
  .object ([("caller", .text c.caller), ("callee", .text c.callee)] ++
    member? "site" (·.toJson) c.site)

def ofJson (depth : Nat) (j : Json) : Decoded CallDecl := do
  let r ← asRecord (fieldsNamed ["caller", "callee", "site"]) j
  return ⟨← r.required "caller" asText, ← r.required "callee" asText,
    ← r.optional "site" (Source.ofJson (depth + 1))⟩

end CallDecl

namespace FlowDecl

def toJson (f : FlowDecl) : Json :=
  .object ([("from", .text f.source), ("to", .text f.target)] ++
    member? "location" (·.toJson) f.location)

def ofJson (depth : Nat) (j : Json) : Decoded FlowDecl := do
  let r ← asRecord (fieldsNamed ["from", "to", "location"]) j
  return ⟨← r.required "from" asText, ← r.required "to" asText,
    ← r.optional "location" (Source.ofJson (depth + 1))⟩

end FlowDecl

namespace IrFacts

def toJson (ir : IrFacts) : Json :=
  .object [("functions", list (·.toJson) ir.functions), ("globals", list (·.toJson) ir.globals),
    ("calls", list (·.toJson) ir.calls), ("defUse", list (·.toJson) ir.defUse)]

def ofJson (depth : Nat) (j : Json) : Decoded IrFacts := do
  let r ← asRecord (fieldsNamed ["functions", "globals", "calls", "defUse"]) j
  return ⟨← r.orElse "functions" [] (asList (Declaration.ofJson (depth + 2))),
    ← r.orElse "globals" [] (asList (Declaration.ofJson (depth + 2))),
    ← r.orElse "calls" [] (asList (CallDecl.ofJson (depth + 2))),
    ← r.orElse "defUse" [] (asList (FlowDecl.ofJson (depth + 2)))⟩

end IrFacts

namespace PdgFacts

def toJson (pdg : PdgFacts) : Json := .object [("control", list (·.toJson) pdg.control)]

def ofJson (depth : Nat) (j : Json) : Decoded PdgFacts := do
  let r ← asRecord (fieldsNamed ["control"]) j
  return ⟨← r.orElse "control" [] (asList (FlowDecl.ofJson (depth + 2)))⟩

end PdgFacts

namespace LatticeSpec

def pairsToJson (ps : List (String × String)) : Json := list (fun p => texts [p.1, p.2]) ps

def toJson (s : LatticeSpec) : Json :=
  .object [("levels", texts s.levels), ("order", pairsToJson s.order),
    ("exclusive", pairsToJson s.exclusive), ("default", option text s.default)]

def ofJson (j : Json) : Decoded LatticeSpec := do
  let r ← asRecord (fieldsNamed ["levels", "order", "exclusive", "default"]) j
  return ⟨← r.orElse "levels" [] asTexts, ← r.orElse "order" [] (asList asTextPair),
    ← r.orElse "exclusive" [] (asList asTextPair), ← r.optional "default" asText⟩

end LatticeSpec

namespace SolverSettings

def toJson (s : SolverSettings) : Json :=
  .object [("max_steps", option (.nat ·.toNat) s.maxSteps), ("parallel", .bool s.parallel)]

def ofJson (j : Json) : Decoded SolverSettings := do
  let r ← asRecord (fieldsNamed ["max_steps", "parallel"]) j
  return ⟨← r.optional "max_steps" asUInt64, ← r.orElse "parallel" true asBool⟩

end SolverSettings

end Enclave
