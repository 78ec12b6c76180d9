/-!
# Enclave.Dependence.Kinds

The kinds of dependence between program elements, and sets of them.
-/

namespace Enclave

inductive DependenceKind where
  /-- A value written at the source is read at the target. -/
  | data
  /-- Whether the target runs depends on a branch in the source. -/
  | control
  /-- The source calls the target. -/
  | call
deriving DecidableEq, Repr

namespace DependenceKind

def all : List DependenceKind := [.data, .control, .call]

def name : DependenceKind → String
  | .data => "data"
  | .control => "control"
  | .call => "call"

end DependenceKind

structure Kinds where
  data : Bool := false
  control : Bool := false
  call : Bool := false
deriving DecidableEq, Repr

namespace Kinds

def empty : Kinds := {}

def contains (s : Kinds) : DependenceKind → Bool
  | .data => s.data
  | .control => s.control
  | .call => s.call

def insert (s : Kinds) : DependenceKind → Kinds
  | .data => { s with data := true }
  | .control => { s with control := true }
  | .call => { s with call := true }

def single (k : DependenceKind) : Kinds := empty.insert k

def ofList (ks : List DependenceKind) : Kinds := ks.foldl insert empty

def toList (s : Kinds) : List DependenceKind := DependenceKind.all.filter s.contains

def union (s t : Kinds) : Kinds := ⟨s.data || t.data, s.control || t.control, s.call || t.call⟩

def isEmpty (s : Kinds) : Bool := s == empty

def subset (s t : Kinds) : Bool := s.toList.all t.contains

def isPureData (s : Kinds) : Bool := s == single .data

/-- The kinds over which a value enters a function as an argument. -/
def boundary : Kinds := { data := true, call := true }

def render (s : Kinds) : String := "|".intercalate (s.toList.map (·.name))

end Kinds

end Enclave
