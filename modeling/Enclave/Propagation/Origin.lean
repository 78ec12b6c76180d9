import Enclave.Dependence.Graph

/-!
# Enclave.Propagation.Origin

What is known about one node while levels spread: the levels that reached it, each with the nearest
place it came from, and the join of them all.
-/

namespace Enclave

/-- Where a level came from and how many edges it travelled. -/
structure Origin where
  seed : NodeId
  distance : Nat
deriving DecidableEq, Repr

namespace Origin

def start (v : NodeId) : Origin := ⟨v, 0⟩

def step (o : Origin) : Except Overflow Origin := do
  return { o with distance := ← addBelow word32 o.distance 1 }

/-- Shorter distances come first, then seeds by name. -/
def order (g : Graph) (a b : Origin) : Ordering :=
  (compare a.distance b.distance).then (compare (g.name a.seed) (g.name b.seed))

end Origin

inductive NodeState where
  | unassigned
  /-- The join of every level that has reached the node so far. -/
  | tentative (level : Level)
  | final (level : Level)
  | conflicted
deriving DecidableEq, Repr

namespace NodeState

def level? : NodeState → Option Level
  | .tentative a => some a
  | .final a => some a
  | .unassigned => none
  | .conflicted => none

def finalize : NodeState → NodeState
  | .tentative a => .final a
  | s => s

end NodeState

/-- The levels that reached one node. -/
structure NodeFacts where
  state : NodeState := .unassigned
  levels : SortedMap Level Origin := ∅
deriving DecidableEq

namespace NodeFacts

def joined? (l : Lattice) (f : NodeFacts) (a : Level) : Option Level :=
  match f.state with
  | .unassigned => some a
  | .tentative b => l.join? b a
  | .final b => l.join? b a
  | .conflicted => none

/-- The levels present that cannot be at the node together with one more. -/
def clashes (l : Lattice) (f : NodeFacts) (a : Level) : List (Level × Origin) :=
  f.levels.toList.filter fun present => !l.compatible a present.1

/-- The level present whose origin is nearest, the first of them on a tie. -/
def nearest? (g : Graph) (f : NodeFacts) : Option (Level × Origin) :=
  match f.levels.toList with
  | [] => none
  | p :: ps => some (ps.foldl (fun best q => if (q.2.order g best.2).isLT then q else best) p)

def add (l : Lattice) (f : NodeFacts) (a : Level) (o : Origin) : NodeFacts :=
  { state :=
      match f.joined? l a with
      | some b => .tentative b
      | none => .conflicted
    levels := f.levels.insert a o }

end NodeFacts

end Enclave
