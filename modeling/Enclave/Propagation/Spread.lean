import Enclave.Propagation.Budget
import Enclave.Propagation.Witness

/-!
# Enclave.Propagation.Spread

The spread of levels over a set of nodes. Every node with a seed starts with its level. Levels then
travel along outgoing edges, one edge per round; a level that is new to a node travels on from there
in the next round, so that each level crosses each edge at most once.

Three kinds of label change how a level travels. A function that lists the level among its argument
taints admits it over data and call edges and is not constrained by it. A function with exactly one
return level sends that level, not its own, along edges that carry data alone. A function whose code
taint does not list a level that reaches it gives a witness.

When the join of a node's levels is above all of them it becomes a level of the node itself, so that
what depends on the node is checked against it too.
-/

namespace Enclave

attribute [local instance] lexOrd

/-- What is known about a set of nodes once levels have spread. -/
structure Solution where
  facts : SortedMap NodeId NodeFacts := ∅
  witnesses : List Witness := []
  /-- The edges along which levels travelled, with the levels. -/
  carried : SortedSet (EdgeId × Level) := ∅
deriving DecidableEq

namespace Solution

def isConsistent (s : Solution) : Bool := s.witnesses.isEmpty

def state (s : Solution) (v : NodeId) : NodeState :=
  match s.facts.get? v with
  | some f => f.state
  | none => .unassigned

def absorb (s t : Solution) : Solution :=
  { facts := t.facts.toList.foldl (fun m e => m.insert e.1 e.2) s.facts
    witnesses := s.witnesses ++ t.witnesses
    carried := s.carried.union t.carried }

end Solution

/-- Levels on their way. -/
structure Flow where
  budget : Budget
  facts : SortedMap NodeId NodeFacts := ∅
  witnesses : WitnessSet := {}
  carried : SortedSet (EdgeId × Level) := ∅
  /-- The levels that are new to a node and have not travelled on yet. -/
  pending : SortedSet (NodeId × Level) := ∅
deriving DecidableEq

namespace Flow

def factsOf (s : Flow) (v : NodeId) : NodeFacts := (s.facts.get? v).getD {}

def take (s : Flow) : Except SolveError Flow := do
  return { s with budget := ← s.budget.take }

def solution (s : Flow) : Solution := ⟨s.facts, s.witnesses.toList, s.carried⟩

end Flow

namespace Spread

/--
The levels present against which an arriving level is evidence: those it clashes with, or, where it
clashes with none and only the join of all is missing, the nearest of them.
-/
def opponents (g : Graph) (l : Lattice) (f : NodeFacts) (a : Level) : List (Level × Origin) :=
  match f.clashes l a with
  | [] =>
    if (f.joined? l a).isNone && f.state != .conflicted then (f.nearest? g).toList else []
  | clashes => clashes

/-- What the body of a function allows in place of a level that it forbids. -/
def allowedInstead (n : Node) (a : Level) : Option Level :=
  match n.code? with
  | none => none
  | some code => if code.contains a then none else n.seed?.or code.min?

def evidence (g : Graph) (l : Lattice) (f : NodeFacts) (v : NodeId) (a : Level) (o : Origin)
    (kind : ConflictKind) : List Witness :=
  let incoming := Side.ofFact a o
  let against := (opponents g l f a).map fun p => ⟨kind, incoming, .ofFact p.1 p.2, v⟩
  let forbidden := (g.nodes[v]?.bind (allowedInstead · a)).toList.map fun b =>
    ⟨.taint, incoming, ⟨v, b, 0⟩, v⟩
  against ++ forbidden

/-- A level that a node has already comes from the nearer of two origins. -/
def improve (g : Graph) (s : Flow) (v : NodeId) (a : Level) (known o : Origin) : Flow :=
  if (o.order g known).isLT then
    let f := s.factsOf v
    { s with facts := s.facts.insert v { f with levels := f.levels.insert a o } }
  else s

/-- A level new to a node, and the join that it raises the node to, if that is new too. -/
def settle (g : Graph) (l : Lattice) (s : Flow) (v : NodeId) (a : Level) (o : Origin)
    (kind : ConflictKind) : Except Overflow (Flow × Option Level) := do
  let f := s.factsOf v
  let witnesses ← s.witnesses.recordAll (evidence g l f v a o kind)
  let f' := f.add l a o
  let raised := (f.joined? l a).filter fun b => !f'.levels.contains b
  return ({ s with
      witnesses
      facts := s.facts.insert v f'
      pending := s.pending.insert (v, a) }, raised)

/--
A level arrives at a node. A join that it raises the node to arrives there in turn; every arrival
but the last adds a level to the node, so the number of levels bounds them.
-/
def arriveWithin (g : Graph) (l : Lattice) (v : NodeId) (kind : ConflictKind) :
    Nat → Flow → Level → Origin → Except Overflow Flow
  | 0, s, _, _ => .ok s
  | fuel + 1, s, a, o =>
    match (s.factsOf v).levels.get? a with
    | some known => .ok (improve g s v a known o)
    | none => do
      let (s, raised) ← settle g l s v a o kind
      match raised with
      | none => return s
      | some b => arriveWithin g l v kind fuel s b (.start v)

def arrive (g : Graph) (l : Lattice) (s : Flow) (v : NodeId) (a : Level) (o : Origin)
    (via : Option Kinds) : Except SolveError Flow :=
  let kind := (via.map ConflictKind.ofKinds).getD .data
  (arriveWithin g l v kind (l.size + 1) s a o).mapError .overflow

def admits (g : Graph) (e : Edge) (a : Level) : Bool :=
  e.kinds.subset .boundary &&
    (g.nodes[e.target]?.bind (·.taint?)).any (·.admitsArgument a)

def deliver (g : Graph) (l : Lattice) (a : Level) (o : Origin) (s : Flow) (e : Edge × EdgeId) :
    Except SolveError Flow := do
  let next ← o.step.mapError .overflow
  let s ← s.take
  if admits g e.1 a then
    return s
  else
    arrive g l { s with carried := s.carried.insert (e.2, a) } e.1.target a next (some e.1.kinds)

def plant (g : Graph) (l : Lattice) (s : Flow) (v : NodeId) : Except SolveError Flow :=
  match g.nodes[v]?.bind (·.seed?) with
  | none => .ok s
  | some a => do arrive g l (← s.take) v a (.start v) none

def returnEdges (g : Graph) (v : NodeId) : List (Edge × EdgeId) :=
  (g.successors v).filter (·.1.kinds.isPureData)

def sendReturn (g : Graph) (l : Lattice) (s : Flow) (v : NodeId) : Except SolveError Flow :=
  match g.nodes[v]?.bind (·.singleReturn?) with
  | none => .ok s
  | some a => (returnEdges g v).foldlM (deliver g l a (.start v)) s

def onwardEdges (g : Graph) (v : NodeId) : List (Edge × EdgeId) :=
  if (g.nodes[v]?.bind (·.singleReturn?)).isSome then
    (g.successors v).filter (!·.1.kinds.isPureData)
  else g.successors v

def forward (g : Graph) (l : Lattice) (s : Flow) (fact : NodeId × Level) :
    Except SolveError Flow :=
  match (s.factsOf fact.1).levels.get? fact.2 with
  | none => .ok s
  | some o => (onwardEdges g fact.1).foldlM (deliver g l fact.2 o) s

def round (g : Graph) (l : Lattice) (s : Flow) : Except SolveError Flow :=
  s.pending.toList.foldlM (forward g l) { s with pending := ∅ }

def rounds (g : Graph) (l : Lattice) : Nat → Flow → Except SolveError Flow
  | 0, s => .ok s
  | fuel + 1, s =>
    if s.pending.isEmpty then .ok s
    else do rounds g l fuel (← round g l s)

def launch (g : Graph) (l : Lattice) (members : List NodeId) (budget : Budget) :
    Except SolveError Flow := do
  let s ← members.foldlM (plant g l) { budget }
  members.foldlM (sendReturn g l) s

/--
Spreads levels over `members`, which no edge leaves or enters. A round that leaves something pending
takes at least one step, so the steps left bound the rounds.
-/
def run (g : Graph) (l : Lattice) (members : List NodeId) (budget : Budget) :
    Except SolveError (Solution × Budget) := do
  let s ← launch g l members budget
  let s ← rounds g l (s.budget.left + 2) s
  return (s.solution, s.budget)

end Spread

end Enclave
