import Enclave.Files.Discovery

/-!
# Enclave.Files.Access

The operations on files that a command needs, and their meaning on a tree of files.
-/

namespace Enclave

structure SaveError where
  path : String
  cause : String
deriving DecidableEq, Repr

def SaveError.message (e : SaveError) : String := s!"writing {e.path}: {e.cause}"

/-- Files as a command sees them, with effects in `m`. -/
structure FileAccess (m : Type → Type) where
  read : String → m Reading
  scan : String → m Scan
  present : String → m Bool
  /-- Writes a text into a directory, which is made if it is not there. -/
  save : (dir path text : String) → m (Except SaveError Unit)

namespace Reading

/-- The text, or the words of the system for what stands in its place. -/
def text? : Reading → Except String String
  | .missing => .error FileError.notFound.message
  | .directory => .error FileError.isADirectory.message
  | .unreadable cause => .error cause
  | .text s => .ok s

end Reading

namespace Entry

mutual

/-- A tree as a walk sees it; the contents of files play no part. -/
def fileTree {α : Type} : Entry α → FileTree
  | .file _ => .file
  | .directory entries => .directory (fileTrees entries)

def fileTrees {α : Type} : List (String × Entry α) → List (FileName × FileTree)
  | [] => []
  | (name, e) :: rest => (.ofText name, e.fileTree) :: fileTrees rest

end

def reading (root : Entry ByteArray) (workingDir : List String) (path : String) : Reading :=
  match root.find workingDir path with
  | .error .notFound => .missing
  | .error e => .unreadable e.message
  | .ok (.directory _) => .directory
  | .ok (.file bytes) =>
    match String.fromUTF8? bytes with
    | some s => .text s
    | none => .unreadable FileError.notText.message

def scanned {α : Type} (root : Entry α) (workingDir : List String) (path : String) : Scan :=
  match root.find workingDir path with
  | .error .notFound => .missing
  | .error e => .unreadable e.message
  | .ok (.file _) => .notADirectory
  | .ok (.directory entries) =>
    .directory ((FileTree.directory (fileTrees entries)).walk (.ofText path))

def saved (root : Entry ByteArray) (workingDir : List String) (dir path text : String) :
    Entry ByteArray × Except SaveError Unit :=
  match root.makeDirectories workingDir dir with
  | (root, .error e) => (root, .error ⟨dir, e.message⟩)
  | (root, .ok ()) =>
    match root.write workingDir path text.toUTF8 with
    | .ok root => (root, .ok ())
    | .error e => (root, .error ⟨path, e.message⟩)

def access (workingDir : List String) : FileAccess (StateM (Entry ByteArray)) where
  read path := do return (← get).reading workingDir path
  scan path := do return (← get).scanned workingDir path
  present path := do return ((← get).find workingDir path).isOk
  save dir path text := do
    let (root, done) := (← get).saved workingDir dir path text
    set root
    return done

end Entry

end Enclave
