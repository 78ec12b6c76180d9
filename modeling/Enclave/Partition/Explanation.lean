import Enclave.Dependence.Paths
import Enclave.Partition.Outcome
import Enclave.Partition.Remedy
import Enclave.Propagation.Spread

/-!
# Enclave.Partition.Explanation

Conflicts from witnesses. Each side of a witness is traced back to its seed along the edges that
carried its level; the places of the nodes on the way are the sources of the conflict, from the node
where the levels meet outward.
-/

namespace Enclave

namespace Explanation

attribute [local instance] lexOrd

/-- The nodes from a seed to the meeting node, along edges that carried the level. -/
def tracePath (g : Graph) (s : Solution) (e : Side) (meeting : NodeId) : List NodeId :=
  (g.shortestPath? [e.seed] meeting fun edge => s.carried.contains (edge.2, e.level)).getD
    [e.seed, meeting]

/-- The nodes of both paths, from the meeting node outward, each once. -/
def outward (meeting : NodeId) (incoming existing : List NodeId) : List NodeId :=
  (meeting :: (incoming.reverse.drop 1 ++ existing.reverse.drop 1)).eraseDups

/-- The places of nodes; where none is known, the file of the program. -/
def sources (g : Graph) (sourcePath : String) (nodes : List NodeId) :
    Except Overflow (List Source) := do
  match ← (nodes.filterMap fun v => g.nodes[v]?.bind (·.location)).mapM (·.toSource) with
  | [] => return [.line sourcePath 0 none]
  | found => return found

def describe (g : Graph) (l : Lattice) (w : Witness) (hops : Nat) : String :=
  let meeting := g.name w.meeting
  let seed := g.name w.incoming.seed
  let other := g.name w.existing.seed
  let incoming := uppercase (l.name w.incoming.level)
  let existing := uppercase (l.name w.existing.level)
  let start := s!"Cannot assign `{meeting}` to both levels {incoming} and {existing}: "
  let along (via : String) :=
    s!"`{seed}` is {incoming} and reaches it over {hops} {via} edge(s), `{other}` is {existing}"
  match w.kind with
  | .taint =>
    start ++ s!"its codeTaint does not allow {incoming}, which reaches it from `{seed}` " ++
      s!"over {hops} edge(s)"
  | .data => start ++ along "data"
  | .control => start ++ along "control"
  | .call => start ++ along "call"

def conflict (g : Graph) (l : Lattice) (s : Solution) (sourcePath : String) (w : Witness) :
    Except Overflow Conflict := do
  let incoming := tracePath g s w.incoming w.meeting
  let existing := tracePath g s w.existing w.meeting
  return {
    kind := w.kind
    description := describe g l w (incoming.length - 1)
    sources := ← sources g sourcePath (outward w.meeting incoming existing)
    remedies := remedies g l w }

def comesBefore (a b : Conflict) : Bool :=
  let first (c : Conflict) := (c.sources.head?).map Location.ofSource
  ((compare a.kind.rank b.kind.rank).then (compare (first a) (first b))).isLT

end Explanation

def explain (g : Graph) (l : Lattice) (s : Solution) (sourcePath : String) :
    Except Overflow (List Conflict) := do
  return sortBy Explanation.comesBefore
    (← s.witnesses.mapM (Explanation.conflict g l s sourcePath))

end Enclave
