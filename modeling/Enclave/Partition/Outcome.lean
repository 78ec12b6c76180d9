import Enclave.Problem
import Enclave.Propagation.Witness
import Enclave.Source.Location

/-!
# Enclave.Partition.Outcome

What an analysis ends with: a level for every element, the reasons why there is none, or what is
wrong with the input.
-/

namespace Enclave

/-- The level of one function or global, and the line it is declared on, if known. -/
structure Placement where
  name : String
  level : String
  line : String
deriving DecidableEq, Repr

structure Topology where
  sourcePath : String
  levels : List String
  globals : List Placement
  functions : List Placement
  /-- Elements that nothing constrains, which have the default level. -/
  defaulted : List String := []
deriving DecidableEq, Repr

namespace Topology

def levelOf? (t : Topology) (name : String) : Option String :=
  ((t.functions ++ t.globals).find? (·.name == name)).map (·.level)

end Topology

structure Conflict where
  kind : ConflictKind
  description : String
  sources : List Source
  remedies : List String := []
deriving DecidableEq, Repr

inductive Outcome where
  | success (topology : Topology)
  | conflict (conflicts : List Conflict)
  | failure (problems : List Problem)
deriving DecidableEq, Repr

namespace Outcome

def tag : Outcome → String
  | .success _ => "Success"
  | .conflict _ => "Conflict"
  | .failure _ => "Error"

def topology? : Outcome → Option Topology
  | .success t => some t
  | _ => none

def conflicts : Outcome → List Conflict
  | .conflict cs => cs
  | _ => []

def problems : Outcome → List Problem
  | .failure ps => ps
  | _ => []

end Outcome

end Enclave
