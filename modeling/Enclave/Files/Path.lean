/-!
# Enclave.Files.Path

Paths by their components. Repeated and trailing slashes do not count, and neither does a dot that
is not the start of a relative path.
-/

namespace Enclave

namespace Path

inductive Component where
  | root
  | current
  | parent
  | normal (name : String)
deriving DecidableEq, Repr

namespace Component

/-- Components come in the order root, `.`, `..`, and then names. -/
def key : Component → Nat × String
  | .root => (0, "")
  | .current => (1, "")
  | .parent => (2, "")
  | .normal name => (3, name)

attribute [local instance] lexOrd

instance : Ord Component := ⟨compareOn key⟩

def ofName (name : String) : Component := if name = ".." then .parent else .normal name

def name : Component → String
  | .root => "/"
  | .current => "."
  | .parent => ".."
  | .normal name => name

end Component

def isAbsolute (path : String) : Bool := path.toList.head? == some '/'

def parts (path : String) : List String := (path.splitOn "/").filter (· != "")

def components (path : String) : List Component :=
  let named (ps : List String) := (ps.filter (· != ".")).map Component.ofName
  if isAbsolute path then .root :: named (parts path)
  else
    match parts path with
    | "." :: ps => .current :: named ps
    | ps => named ps

def fileName? (path : String) : Option String :=
  match (components path).getLast? with
  | some (.normal name) => some name
  | _ => none

/-- `path` seen from `base`; an absolute path stands for itself. -/
def join (base path : String) : String :=
  if isAbsolute path then path
  else if base.isEmpty || base.toList.getLast? == some '/' then base ++ path
  else base ++ "/" ++ path

/-- Whether a path starts with a dot of its own, which is a component. -/
def startsWithDot (path : String) : Bool := (path.splitOn "/").head? == some "."

/-- A part between slashes that is no component. -/
def isFiller (part : String) : Bool := part == "" || part == "."

/-- The path without its last component. The rest stays as it is written, except that it ends in
a component again. -/
def parent? (path : String) : Option String :=
  let width := if isAbsolute path || startsWithDot path then 1 else 0
  let start := String.ofList (path.toList.take width)
  let body := String.ofList (path.toList.drop width)
  match (body.splitOn "/").reverse.dropWhile isFiller with
  | _ :: before => some (start ++ String.intercalate "/" (before.dropWhile isFiller).reverse)
  | [] => if startsWithDot path then some "" else none

def ancestorsWithin : Nat → String → List String
  | 0, path => [path]
  | n + 1, path =>
    match parent? path with
    | some parent => path :: ancestorsWithin n parent
    | none => [path]

/-- A path and the directories above it, the nearest first; each is shorter than the one before. -/
def ancestors (path : String) : List String := ancestorsWithin path.length path

def same (a b : String) : Bool := components a == components b

def endsWith (path suffix : String) : Bool :=
  (components suffix).reverse.isPrefixOf (components path).reverse

def order (a b : String) : Ordering := compare (components a) (components b)

end Path

end Enclave
