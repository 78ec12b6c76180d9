import Enclave.Data.Search
import Enclave.Dependence.Graph

/-!
# Enclave.Dependence.Paths

Paths through a dependence graph: shortest paths, what can be reached, and the weakly connected
components. Neighbours are visited in the order of their numbers, so that of several shortest paths
the one with the smallest numbers is found.
-/

namespace Enclave

namespace Graph

def stepsFrom (g : Graph) (follow : Edge × EdgeId → Bool) (u : NodeId) : List NodeId :=
  ((g.successors u).filter follow).map (·.1.target)

/-- A shortest path along followed edges from one of the starting nodes, both ends included. -/
def shortestPath? (g : Graph) (starts : List NodeId) (goal : NodeId)
    (follow : Edge × EdgeId → Bool) : Option (List NodeId) :=
  (Search.trailTo? g.nodes.size (g.stepsFrom follow) (SortedSet.ofList starts).toList goal).map
    (·.nodes)

def reachableFrom (g : Graph) (start : NodeId) (follow : Edge × EdgeId → Bool) :
    SortedSet NodeId :=
  .ofList (Search.reached g.nodes.size (g.stepsFrom follow) [start])

def neighbours (g : Graph) (v : NodeId) : List NodeId :=
  g.edges.toList.filterMap fun e =>
    if e.source == v then some e.target else if e.target == v then some e.source else none

def component (g : Graph) (v : NodeId) : List NodeId :=
  (SortedSet.ofList (Search.reached g.nodes.size g.neighbours [v])).toList

/-- The weakly connected components, each in ascending order, by their smallest node. -/
def components (g : Graph) : List (List NodeId) :=
  g.nodeIds.foldl
    (fun parts v => if parts.any (·.contains v) then parts else parts ++ [g.component v]) []

end Graph

end Enclave
