/-!
# Enclave.Data.Search

Breadth-first search over numbered nodes, one layer at a time. Every node met is kept with the
trail by which it was first met, so one search answers which nodes can be reached, and by which
shortest path.
-/

namespace Enclave

/-- A path kept backwards: the node it ends at, and the nodes before that one, nearest first. -/
structure Trail where
  last : Nat
  before : List Nat
deriving DecidableEq, Repr

namespace Trail

def extend (t : Trail) (v : Nat) : Trail := ⟨v, t.last :: t.before⟩

def nodes (t : Trail) : List Nat := (t.last :: t.before).reverse

end Trail

namespace Search

/-- The nodes of a list that were not met before, each once. -/
def fresh (seen : List Nat) : List Nat → List Nat
  | [] => []
  | v :: vs => if seen.contains v then fresh seen vs else v :: fresh (v :: seen) vs

/-- Every trail of a layer extended by the successors that were not met before. -/
def nextLayer (succ : Nat → List Nat) (seen : List Nat) : List Trail → List Trail
  | [] => []
  | t :: ts =>
    let vs := fresh seen (succ t.last)
    vs.map t.extend ++ nextLayer succ (vs ++ seen) ts

def layers (succ : Nat → List Nat) : Nat → List Nat → List Trail → List Trail
  | 0, _, layer => layer
  | fuel + 1, seen, layer =>
    match nextLayer succ seen layer with
    | [] => layer
    | next => layer ++ layers succ fuel (next.map (·.last) ++ seen) next

/--
A trail to every node that can be reached from the starting nodes, nearest first. Each layer but
the first meets a new node, so `count`, the number of nodes there are, bounds the layers.
-/
def trails (count : Nat) (succ : Nat → List Nat) (starts : List Nat) : List Trail :=
  let roots := fresh [] starts
  layers succ count roots (roots.map (⟨·, []⟩))

def reached (count : Nat) (succ : Nat → List Nat) (starts : List Nat) : List Nat :=
  (trails count succ starts).map (·.last)

def trailTo? (count : Nat) (succ : Nat → List Nat) (starts : List Nat) (goal : Nat) :
    Option Trail :=
  (trails count succ starts).find? (·.last == goal)

end Search

end Enclave
