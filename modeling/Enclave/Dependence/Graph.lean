import Enclave.Data.Sorting
import Enclave.Dependence.Kinds
import Enclave.Level.Label

/-!
# Enclave.Dependence.Graph

The dependence graph of a program. Nodes are functions, globals and call sites, each under a name of
its own; between two nodes there is at most one edge in each direction, which carries the set of
kinds of dependence between them. Nodes and edges are numbered in the order they were added.
-/

namespace Enclave

abbrev NodeId := Nat

abbrev EdgeId := Nat

inductive NodeKind where
  | function
  | global
  | callSite
deriving DecidableEq, Repr

namespace NodeKind

def name : NodeKind → String
  | .function => "function"
  | .global => "global"
  | .callSite => "call site"

end NodeKind

structure Node where
  name : String
  kind : NodeKind
  location : Option Location := none
  label : Option Label := none
deriving DecidableEq

namespace Node

def taint? (n : Node) : Option Taint := n.label.bind (·.taint)

def seed? (n : Node) : Option Level := n.label.bind (·.seed?)

def singleReturn? (n : Node) : Option Level := n.taint?.bind (·.singleReturn?)

def code? (n : Node) : Option (SortedSet Level) := n.taint?.bind (·.code)

def render (n : Node) : String := s!"{n.kind.name} '{n.name}'"

end Node

structure Edge where
  source : NodeId
  target : NodeId
  kinds : Kinds
  /-- The earliest place at which the dependence was seen. -/
  location : Option Location := none
deriving DecidableEq

structure Graph where
  nodes : Array Node := #[]
  edges : Array Edge := #[]
deriving DecidableEq

namespace Graph

def nodeIds (g : Graph) : List NodeId := List.range g.nodes.size

def name (g : Graph) (v : NodeId) : String := (g.nodes[v]?.map (·.name)).getD ""

def idOf? (g : Graph) (name : String) : Option NodeId := g.nodes.findIdx? (·.name == name)

def edgeBetween? (g : Graph) (u v : NodeId) : Option EdgeId :=
  g.edges.findIdx? fun e => e.source == u && e.target == v

def numberedEdges (g : Graph) : List (Edge × EdgeId) := g.edges.toList.zipIdx

def outgoing (g : Graph) (u : NodeId) : List EdgeId :=
  (g.numberedEdges.filter (·.1.source == u)).map (·.2)

def incoming (g : Graph) (v : NodeId) : List EdgeId :=
  (g.numberedEdges.filter (·.1.target == v)).map (·.2)

/-- The outgoing edges of a node in the order of their targets. -/
def successors (g : Graph) (u : NodeId) : List (Edge × EdgeId) :=
  sortOn (·.1.target) (g.numberedEdges.filter (·.1.source == u))

end Graph

end Enclave
