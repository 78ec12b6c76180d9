import Enclave.Data.Sorting
import Enclave.Files.Path
import Enclave.Json.Record

/-!
# Enclave.Files.Suffix

The kinds of input file, told apart by the end of their names.
-/

namespace Enclave

inductive InputKind where
  | labels
  | ir
  | pdg
deriving DecidableEq, Repr

namespace InputKind

def all : List InputKind := [.labels, .ir, .pdg]

def name : InputKind → String
  | .labels => "annotations"
  | .ir => "IR"
  | .pdg => "PDG"

def isRequired : InputKind → Bool
  | .pdg => false
  | _ => true

end InputKind

structure Suffixes where
  labels : String := ".cle.json"
  ir : String := ".ir.json"
  pdg : String := ".pdg.json"
deriving DecidableEq, Repr

namespace Suffixes

def get (s : Suffixes) : InputKind → String
  | .labels => s.labels
  | .ir => s.ir
  | .pdg => s.pdg

def hasSuffix (name suffix : String) : Bool := suffix.toList.reverse.isPrefixOf name.toList.reverse

def byLength (s : Suffixes) : List InputKind :=
  sortBy (fun a b => decide ((s.get b).utf8ByteSize < (s.get a).utf8ByteSize)) InputKind.all

/-- The kind of a file by its name: the longest suffix that fits decides, and an empty one never. -/
def kindOf? (s : Suffixes) (name : String) : Option InputKind :=
  s.byLength.find? fun k => s.get k != "" && hasSuffix name (s.get k)

def classify (s : Suffixes) (path : String) : Option InputKind :=
  (Path.fileName? path).bind s.kindOf?

open Json

def toJson (s : Suffixes) : Json :=
  .object [("annotations", .text s.labels), ("ir", .text s.ir), ("pdg", .text s.pdg)]

def ofJson (j : Json) : Decoded Suffixes := do
  let r ← asRecord (fieldsNamed ["annotations", "ir", "pdg"]) j
  let default : Suffixes := {}
  return ⟨← r.orElse "annotations" default.labels asText, ← r.orElse "ir" default.ir asText,
    ← r.orElse "pdg" default.pdg asText⟩

end Suffixes

end Enclave
