import Enclave.Data.SortedMap
import Enclave.Files.Path
import Enclave.Format.Source
import Enclave.Partition.Outcome

/-!
# Enclave.Report.Diagnostics

Conflicts as diagnostics for an editor: one for each source of each conflict, gathered by file.
Other outcomes give none.
-/

namespace Enclave

structure Diagnostic where
  range : TextRange
  code : String
  message : String
deriving DecidableEq, Repr

namespace Diagnostic

def toJson (d : Diagnostic) : Json :=
  .object [("range", d.range.toJson), ("severity", .nat 1), ("code", .text d.code),
    ("source", .text "cle-analyzer"), ("message", .text d.message)]

end Diagnostic

namespace Source

/-- The range to mark; line zero stands for the start of the file. -/
def editorRange (s : Source) : TextRange :=
  match s with
  | .line _ 0 _ => .point ⟨0, 0⟩
  | s => (Location.ofSource s).range

end Source

namespace Conflict

def diagnostic (c : Conflict) (s : Source) : Diagnostic :=
  { range := s.editorRange
    code := c.kind.title
    message := c.description ++ String.join (c.remedies.map fun r => s!"\nhint: {r}") }

end Conflict

structure DocumentUri where
  text : String
deriving DecidableEq, Repr

inductive UriError where
  | notAbsolute (file : String)
deriving DecidableEq, Repr

def UriError.message : UriError → String
  | .notAbsolute file => s!"cannot form a document URI for '{file}'"

namespace DocumentUri

/-- Characters that a URI may not hold as they are. -/
def mustEncode (b : UInt8) : Bool :=
  b ≤ 0x20 || 0x7f ≤ b || "\"#<>?`\x7b\x7d/%\\".toUTF8.toList.contains b

def upperHexDigit (n : Nat) : Char := if n < 10 then Char.ofNat (48 + n) else Char.ofNat (55 + n)

def encodeByte (b : UInt8) : List Char :=
  if mustEncode b then ['%', upperHexDigit (b.toNat / 16), upperHexDigit (b.toNat % 16)]
  else [Char.ofNat b.toNat]

def encode (s : String) : String := String.ofList (s.toUTF8.toList.flatMap encodeByte)

/-- The URI of an absolute path: its components, each after a slash. -/
def ofPath? (path : String) : Option DocumentUri :=
  match Path.components path with
  | .root :: [] => some ⟨"file:///"⟩
  | .root :: cs => some ⟨"file://" ++ String.join (cs.map fun c => "/" ++ encode c.name)⟩
  | _ => none

/-- The URI of a source file, seen from `base` when it is relative, by a function on paths. -/
def ofFile (toUri : String → Option DocumentUri) (base file : String) :
    Except UriError DocumentUri :=
  match toUri (Path.join base file) with
  | some uri => .ok uri
  | none => .error (.notAbsolute file)

end DocumentUri

structure Publication where
  uri : DocumentUri
  diagnostics : List Diagnostic
deriving DecidableEq, Repr

namespace Publication

def toJson (p : Publication) : Json :=
  .object [("uri", .text p.uri.text), ("diagnostics", .list (·.toJson) p.diagnostics)]

end Publication

namespace Outcome

def diagnosticsByFile (o : Outcome) : SortedMap String (List Diagnostic) :=
  (o.conflicts.flatMap fun c => c.sources.map fun s => (s.file, c.diagnostic s)).foldl
    (fun m e => m.insert e.1 ((m.get? e.1).getD [] ++ [e.2])) ∅

/-- The diagnostics of one document, which a file names by its path or by the end of it. -/
def diagnosticsFor (o : Outcome) (document : String) : List Diagnostic :=
  (o.diagnosticsByFile.toList.filter fun e =>
    Path.same document e.1 || Path.endsWith document e.1).flatMap (·.2)

/-- What to publish: for each file its document and diagnostics. -/
def publicationsBy (toUri : String → Option DocumentUri) (o : Outcome) (base : String) :
    Except UriError (List Publication) :=
  o.diagnosticsByFile.toList.mapM fun e => do
    return ⟨← DocumentUri.ofFile toUri base e.1, e.2⟩

def publications (o : Outcome) (base : String) : Except UriError (List Publication) :=
  o.publicationsBy DocumentUri.ofPath? base

end Outcome

end Enclave
