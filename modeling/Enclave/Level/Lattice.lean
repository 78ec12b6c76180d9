import Enclave.Data.Search
import Enclave.Data.SortedSet
import Enclave.Problem

/-!
# Enclave.Level.Lattice

Security levels and the partial order on them. Levels are numbered in the order of their names. The
order is declared as pairs of a lower and an upper level and closed under reflexivity and
transitivity; pairs declared exclusive have no join even where the order gives them one.

With no order declared every two distinct levels are incompatible: they are separate enclaves.
-/

namespace Enclave

/-- A level is its position among the names of its lattice. -/
abbrev Level := Nat

/-- What is declared about the levels besides the names that labels mention. -/
structure LatticeSpec where
  levels : List String := []
  order : List (String × String) := []
  exclusive : List (String × String) := []
  default : Option String := none
deriving DecidableEq, Repr

inductive LatticeError where
  | unknownLevel (name : String)
  | incompatible (a b : String)
  | cyclicOrder (a b : String)
  | tooManyLevels (count : Nat)
deriving DecidableEq, Repr

def maxLevels : Nat := 256

namespace LatticeError

def message : LatticeError → String
  | .unknownLevel name => s!"unknown level '{name}'"
  | .incompatible a b => s!"levels '{a}' and '{b}' are incompatible"
  | .cyclicOrder a b => s!"order between '{a}' and '{b}' is cyclic"
  | .tooManyLevels count => s!"too many levels: {count} (at most {maxLevels})"

def problem (e : LatticeError) : Problem :=
  match e with
  | .unknownLevel _ => .ofClass .unknownLevel e.message
  | .tooManyLevels _ => .ofClass .resourceExhausted e.message
  | _ => .ofClass .invalidFormat e.message

end LatticeError

structure Lattice where
  names : List String
  /-- For each level the levels that dominate it. -/
  above : Array (List Level)
  /-- Pairs without a join, in both directions. -/
  exclusive : List (Level × Level)
  default : Option Level
deriving DecidableEq, Repr

namespace Lattice

def size (l : Lattice) : Nat := l.names.length

def isEmpty (l : Lattice) : Bool := l.names.isEmpty

def levels (l : Lattice) : List Level := List.range l.size

def name (l : Lattice) (a : Level) : String := l.names.getD a ""

def lookup? (l : Lattice) (name : String) : Option Level := l.names.idxOf? name

def lookup (l : Lattice) (name : String) : Except LatticeError Level :=
  match l.lookup? name with
  | some a => .ok a
  | none => .error (.unknownLevel name)

/-- `a` is below or equal to `b` in the closed order. -/
def dominatedBy (l : Lattice) (a b : Level) : Bool := (l.above.getD a []).contains b

def excludes (l : Lattice) (a b : Level) : Bool := l.exclusive.contains (a, b)

def leastUpperBound? (l : Lattice) (a b : Level) : Option Level :=
  let uppers := l.levels.filter fun u => l.dominatedBy a u && l.dominatedBy b u
  uppers.find? fun u => uppers.all (l.dominatedBy u)

def join? (l : Lattice) (a b : Level) : Option Level :=
  if l.excludes a b then none else l.leastUpperBound? a b

def join (l : Lattice) (a b : Level) : Except LatticeError Level :=
  match l.join? a b with
  | some c => .ok c
  | none => .error (.incompatible (l.name a) (l.name b))

/-- Whether both levels may be given to one element. -/
def compatible (l : Lattice) (a b : Level) : Bool := (l.join? a b).isSome

def joinAll (l : Lattice) : List Level → Except LatticeError (Option Level)
  | [] => .ok none
  | a :: as => do return some (← as.foldlM l.join a)

def bottom? (l : Lattice) : Option Level :=
  l.levels.find? fun b => l.levels.all (l.dominatedBy b)

def render (l : Lattice) : String := "\x7b" ++ ", ".intercalate l.names ++ "\x7d"

def cycle? (l : Lattice) : Option (Level × Level) :=
  l.levels.findSome? fun a =>
    (l.levels.find? fun b => decide (a < b) && l.dominatedBy a b && l.dominatedBy b a).map (a, ·)

def lookupPair (l : Lattice) (p : String × String) : Except LatticeError (Level × Level) := do
  let a ← l.lookup p.1
  let b ← l.lookup p.2
  return (a, b)

/-- The levels above each of `n` levels, by way of the declared pairs. -/
def closeOrder (n : Nat) (order : List (Level × Level)) : Array (List Level) :=
  let uppers (a : Nat) := (order.filter (·.1 == a)).map (·.2)
  ((List.range n).map fun a => Search.reached n uppers [a]).toArray

def build (names : List String) (spec : LatticeSpec) : Except LatticeError Lattice := do
  let set := SortedSet.ofList (names ++ spec.levels)
  if set.size > maxLevels then
    throw (.tooManyLevels set.size)
  let bare : Lattice := ⟨set.toList, #[], [], none⟩
  let order ← spec.order.mapM bare.lookupPair
  let ordered := { bare with above := closeOrder bare.size order }
  match ordered.cycle? with
  | some (a, b) => throw (.cyclicOrder (ordered.name a) (ordered.name b))
  | none =>
    let apart ← spec.exclusive.mapM ordered.lookupPair
    let lattice := { ordered with exclusive := apart ++ apart.map Prod.swap }
    match spec.default with
    | some name => return { lattice with default := some (← lattice.lookup name) }
    | none => return { lattice with default := lattice.bottom?.or lattice.levels.head? }

/-- The lattice of separate enclaves. -/
def flat (names : List String) : Except LatticeError Lattice := build names {}

end Lattice

end Enclave
