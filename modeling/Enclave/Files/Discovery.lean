import Enclave.Files.Inputs
import Enclave.Files.Walk

/-!
# Enclave.Files.Discovery

Finding the files of an analysis in a directory by the ends of their names.
-/

namespace Enclave

inductive Scan where
  | missing
  | notADirectory
  | unreadable (cause : String)
  | directory (walk : Walk)

namespace Discovery

def maxDepth : Nat := 8

/-- A search passes hidden directories by, unless it begins in one. -/
def enters (v : Visit) : Bool := v.depth == 0 || !(v.type == .directory && v.name.startsWithDot)

def filesOf (walk : Walk) : List (List FileName) :=
  (((walk maxDepth enters).filterMap Except.toOption).filter (·.type == .file)).map (·.below)

def kindOf? (s : Suffixes) (names : List FileName) : Option InputKind :=
  (names.getLast?.bind (·.text?)).bind s.kindOf?

def ofKind (s : Suffixes) (files : List (List FileName)) (kind : InputKind) :
    List (List FileName) :=
  sortOn id (files.filter fun names => kindOf? s names == some kind)

def pathOf (dir : String) (names : List FileName) : String :=
  names.foldl (fun path name => Path.join path name.shown) dir

def classified (dir : String) (s : Suffixes) (files : List (List FileName)) : InputPaths :=
  let paths kind := (ofKind s files kind).map (pathOf dir)
  ⟨paths .labels, paths .ir, paths .pdg⟩

/-- The input files in a directory, which must hold one of every kind that an analysis needs. -/
def discover (dir : String) (s : Suffixes) (scan : Scan) : Except (List InputError) InputPaths :=
  match scan with
  | .missing => .error [.missing dir]
  | .notADirectory => .error [.notADirectory dir]
  | .unreadable cause => .error [.unreadable dir cause]
  | .directory walk =>
    let found := classified dir s (filesOf walk)
    match found.missingKinds with
    | [] => .ok found
    | kinds => .error (kinds.map fun kind => .notFound dir (s.get kind))

end Discovery

end Enclave
