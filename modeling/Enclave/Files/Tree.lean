import Enclave.Files.Path

/-!
# Enclave.Files.Tree

Files and directories as a value, and what a path leads to in them.
-/

namespace Enclave

/-- A file with its content, or a directory with what it holds by name. -/
inductive Entry (α : Type) where
  | file (content : α)
  | directory (entries : List (String × Entry α))

inductive FileError where
  | notFound
  | alreadyExists
  | notADirectory
  | isADirectory
  | nameTooLong
  | nulByte
  | notText
deriving DecidableEq, Repr

def FileError.message : FileError → String
  | .notFound => "No such file or directory (os error 2)"
  | .alreadyExists => "File exists (os error 17)"
  | .notADirectory => "Not a directory (os error 20)"
  | .isADirectory => "Is a directory (os error 21)"
  | .nameTooLong => "File name too long (os error 36)"
  | .nulByte => "file name contained an unexpected NUL byte"
  | .notText => "stream did not contain valid UTF-8"

namespace Entry

variable {α : Type}

def isDirectory : Entry α → Bool
  | .file _ => false
  | .directory _ => true

mutual

def files : Entry α → List (List String × α)
  | .file content => [([], content)]
  | .directory entries => filesOf entries

def filesOf : List (String × Entry α) → List (List String × α)
  | [] => []
  | (name, e) :: rest =>
    (e.files.map fun (names, content) => (name :: names, content)) ++ filesOf rest

end

def get? : Entry α → List String → Option (Entry α)
  | e, [] => some e
  | .file _, _ :: _ => none
  | .directory entries, name :: names =>
    match entries.lookup name with
    | some e => get? e names
    | none => none

def setEntry (name : String) (e : Entry α) : List (String × Entry α) → List (String × Entry α)
  | [] => [(name, e)]
  | (other, f) :: rest =>
    if other = name then (name, e) :: rest else (other, f) :: setEntry name e rest

/-- The tree with `new` where the names lead; directories on the way are made. -/
def put : Entry α → List String → Entry α → Entry α
  | _, [], new => new
  | .file content, _ :: _, _ => .file content
  | .directory entries, name :: names, new =>
    .directory (setEntry name (put ((entries.lookup name).getD (.directory [])) names new) entries)

def maxName : Nat := 255

def maxPath : Nat := 4095

def isLongName (name : String) : Bool := maxName < name.utf8ByteSize

def checkPath (path : String) : Except FileError Unit :=
  if path.toList.contains '\x00' then .error .nulByte
  else if path.isEmpty then .error .notFound
  else if maxPath < path.utf8ByteSize then .error .nameTooLong
  else .ok ()

/-- Steps of a path; one that ends in a slash leads to a directory. -/
def pathSteps (path : String) : List String :=
  let parts := Path.parts path
  if !parts.isEmpty && path.toList.getLast? == some '/' then parts ++ ["."] else parts

def follow (root : Entry α) : List String → List String → Except FileError (List String)
  | here, [] => .ok here
  | here, step :: steps =>
    match root.get? here with
    | none => .error .notFound
    | some (.file _) => .error .notADirectory
    | some (.directory _) =>
      if step = "." then follow root here steps
      else if step = ".." then follow root here.dropLast steps
      else if isLongName step then .error .nameTooLong
      else follow root (here ++ [step]) steps

def startOf (workingDir : List String) (path : String) : List String :=
  if Path.isAbsolute path then [] else workingDir

/-- The names that a path stands for; what they lead to need not be there. -/
def locate (root : Entry α) (workingDir : List String) (path : String) :
    Except FileError (List String) := do
  checkPath path
  follow root (startOf workingDir path) (pathSteps path)

def find (root : Entry α) (workingDir : List String) (path : String) :
    Except FileError (Entry α) := do
  match root.get? (← locate root workingDir path) with
  | some e => .ok e
  | none => .error .notFound

def hasDirectory (root : Entry α) (workingDir : List String) (path : String) : Bool :=
  match root.find workingDir path with
  | .ok e => e.isDirectory
  | .error _ => false

/-- Makes one directory in another that is there already. A path that ends in a dot or two names
no new directory. -/
def makeDirectory (root : Entry α) (workingDir : List String) (path : String) :
    Except FileError (Entry α) := do
  checkPath path
  let steps := Path.parts path
  let parent ← follow root (startOf workingDir path) steps.dropLast
  match root.get? parent, steps.getLast? with
  | none, _ => .error .notFound
  | some (.file _), _ => .error .notADirectory
  | some (.directory _), none => .error .alreadyExists
  | some (.directory entries), some name =>
    if name = "." || name = ".." || (entries.lookup name).isSome then .error .alreadyExists
    else if isLongName name then .error .nameTooLong
    else .ok (root.put (parent ++ [name]) (.directory []))

def ensureDirectory (root : Entry α) (workingDir : List String) (path : String) :
    Entry α × Except FileError Unit :=
  match root.makeDirectory workingDir path with
  | .ok root => (root, .ok ())
  | .error e => (root, if root.hasDirectory workingDir path then .ok () else .error e)

/-- Makes the first directory of the list; the others are above it, the nearest first, and are made
before it if they are missing. What has been made stays also when a later step fails. -/
def ensureAlong (root : Entry α) (workingDir : List String) :
    List String → Entry α × Except FileError Unit
  | [] => (root, .ok ())
  | path :: above =>
    if path.isEmpty then (root, .ok ())
    else
      match root.ensureDirectory workingDir path with
      | (root, .error .notFound) =>
        match ensureAlong root workingDir above with
        | (root, .ok ()) => root.ensureDirectory workingDir path
        | failed => failed
      | done => done

def makeDirectories (root : Entry α) (workingDir : List String) (path : String) :
    Entry α × Except FileError Unit :=
  ensureAlong root workingDir (Path.ancestors path)

def write (root : Entry α) (workingDir : List String) (path : String) (content : α) :
    Except FileError (Entry α) := do
  let names ← locate root workingDir path
  match root.get? names with
  | some (.directory _) => .error .isADirectory
  | some (.file _) => .ok (root.put names (.file content))
  | none =>
    match root.get? names.dropLast with
    | some (.directory _) => .ok (root.put names (.file content))
    | _ => .error .notFound

end Entry

end Enclave
