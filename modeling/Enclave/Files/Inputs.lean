import Enclave.Files.Suffix
import Enclave.Files.Tree
import Enclave.Format.Program
import Enclave.Level.Label

/-!
# Enclave.Files.Inputs

The files of an analysis, and the program that they declare together. Every file is looked at on its
own and every problem is kept, so that one run reports them all.
-/

namespace Enclave

structure InputPaths where
  labels : List String := []
  ir : List String := []
  pdg : List String := []
deriving DecidableEq, Repr

inductive InputError where
  | missing (path : String)
  | notAFile (path : String)
  | notADirectory (path : String)
  | unreadable (path cause : String)
  | malformed (path : String) (cause : Json.DecodeError)
  | notFound (dir suffix : String)
  | notGiven (kind : InputKind)
  | label (path : String) (cause : LabelError)
deriving DecidableEq, Repr

namespace InputError

def message : InputError → String
  | .missing path => path
  | .notAFile path => s!"{path} is a directory"
  | .notADirectory path => s!"{path} is not a directory"
  | .unreadable path cause => s!"reading {path}: {cause}"
  | .malformed path cause => s!"{path}: {cause.message}"
  | .notFound dir suffix => s!"no *{suffix} file under {dir}"
  | .notGiven kind => s!"no {kind.name} input given"
  | .label path cause => s!"{path}: {cause.message}"

def problemClass : InputError → ProblemClass
  | .missing _ | .notFound _ _ | .notGiven _ => .missingFile
  | .notAFile _ => .notAFile
  | .notADirectory _ => .notADirectory
  | .unreadable _ _ => .unreadable
  | .malformed _ _ => .invalidFormat
  | .label _ _ => .malformedLabel

def problem (e : InputError) : Problem := .ofClass e.problemClass e.message

end InputError

namespace InputPaths

def get (p : InputPaths) : InputKind → List String
  | .labels => p.labels
  | .ir => p.ir
  | .pdg => p.pdg

def toList (p : InputPaths) : List (InputKind × String) :=
  InputKind.all.flatMap fun kind => (p.get kind).map fun path => (kind, path)

def isEmpty (p : InputPaths) : Bool := p.toList.isEmpty

def missingKinds (p : InputPaths) : List InputKind :=
  InputKind.all.filter fun kind => kind.isRequired && (p.get kind).isEmpty

def require (p : InputPaths) : Except (List InputError) Unit :=
  match p.missingKinds with
  | [] => .ok ()
  | kinds => .error (kinds.map .notGiven)

end InputPaths

inductive Reading where
  | missing
  | directory
  | unreadable (cause : String)
  | text (content : String)
deriving DecidableEq, Repr

namespace Reading

def content (path : String) : Reading → Except InputError String
  | .missing => .error (.missing path)
  | .directory => .error (.notAFile path)
  | .unreadable cause => .error (.unreadable path cause)
  | .text s => .ok s

end Reading

namespace InputKind

def declared (kind : InputKind) (text : String) : Json.Decoded Program :=
  match kind with
  | .labels => do return { labels := ← Json.decode (LabelDecls.ofJson 0) text }
  | .ir => do return { ir := ← Json.decode (IrFacts.ofJson 0) text }
  | .pdg => do return { pdg := ← Json.decode (PdgFacts.ofJson 0) text }

end InputKind

namespace Inputs

def declaredBy (kind : InputKind) (path : String) (reading : Reading) :
    Except InputError Program := do
  let text ← reading.content path
  (kind.declared text).mapError (.malformed path)

def add (look : String → Reading) (acc : Program × List InputError) (file : InputKind × String) :
    Program × List InputError :=
  match declaredBy file.1 file.2 (look file.2) with
  | .error e => (acc.1, acc.2 ++ [e])
  | .ok part =>
    let (merged, again) := acc.1.merge part
    (merged, acc.2 ++ again.map fun name => .label file.2 (.repeated name))

/-- The program that the files declare, or everything that is wrong with them. -/
def load (look : String → Reading) (paths : InputPaths) : Except (List InputError) Program :=
  match paths.toList.foldl (add look) ({}, []) with
  | (program, []) => .ok program
  | (_, errors) => .error errors

end Inputs

end Enclave
