import Enclave.Partition.Outcome
import Enclave.Propagation.Spread

/-!
# Enclave.Partition.Assignment

One level for every node, read off a solution. A node that no level reached has the default level of
the lattice.
-/

namespace Enclave

structure Assignment where
  /-- The level of each node, by number. -/
  levels : List Level
  defaulted : List NodeId
deriving DecidableEq, Repr

namespace Assignment

/-- The level of a node, if one reached it and the levels there have a join. -/
def reached? (s : Solution) (v : NodeId) : Option Level := (s.state v).finalize.level?

def levelFor (g : Graph) (l : Lattice) (s : Solution) (v : NodeId) : Except SolveError Level :=
  match reached? s v with
  | some a => .ok a
  | none =>
    match l.default with
    | some a => .ok a
    | none => .error (.noLevels g.nodes.size)

def ofSolution (g : Graph) (l : Lattice) (s : Solution) : Except SolveError Assignment := do
  return {
    levels := ← g.nodeIds.mapM (levelFor g l s)
    defaulted := g.nodeIds.filter fun v => (reached? s v).isNone }

def level? (a : Assignment) (v : NodeId) : Option Level := a.levels[v]?

def isDefaulted (a : Assignment) (v : NodeId) : Bool := a.defaulted.contains v

def lineOf (n : Node) : Except Overflow String :=
  match n.location with
  | none => return ""
  | some location => do return toString (← location.lineNumber)

def placement (l : Lattice) (entry : Node × Level) : Except Overflow Placement := do
  return ⟨entry.1.name, l.name entry.2, ← lineOf entry.1⟩

def placements (a : Assignment) (g : Graph) (l : Lattice) (kind : NodeKind) :
    Except Overflow (List Placement) := do
  let entries := (g.nodes.toList.zip a.levels).filter (·.1.kind == kind)
  return sortOn (·.name) (← entries.mapM (placement l))

/-- The partition as it is reported. Call sites are left out. -/
def topology (a : Assignment) (g : Graph) (l : Lattice) (sourcePath : String) :
    Except Overflow Topology := do
  let functions ← a.placements g l .function
  let globals ← a.placements g l .global
  let unreached := (a.defaulted.filterMap (g.nodes[·]?)).filter (·.kind != .callSite)
  return {
    sourcePath
    levels := l.names
    globals
    functions
    defaulted := sortOn id (unreached.map (·.name)) }

end Assignment

end Enclave
