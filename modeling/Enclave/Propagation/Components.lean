import Enclave.Dependence.Paths
import Enclave.Propagation.Spread

/-!
# Enclave.Propagation.Components

The spread of levels over a whole graph. No edge joins two weakly connected components, so each is
solved by itself; all of them draw on one budget.
-/

namespace Enclave

namespace Spread

/-- Solves sets of nodes one after another on one budget; what the one leaves the next may use. -/
def runEach (g : Graph) (l : Lattice) :
    Budget → List (List NodeId) → List (Except SolveError Solution × Budget)
  | _, [] => []
  | budget, members :: rest =>
    match run g l members budget with
    | .ok (solution, budget) => (.ok solution, budget) :: runEach g l budget rest
    | .error e => (.error e, budget.spent) :: runEach g l budget.spent rest

def runAll (g : Graph) (l : Lattice) :
    Budget → List (List NodeId) → Except SolveError (Solution × Budget)
  | budget, [] => .ok ({}, budget)
  | budget, members :: rest => do
    let (part, budget) ← run g l members budget
    let (others, budget) ← runAll g l budget rest
    return (part.absorb others, budget)

end Spread

namespace Graph

def solve (g : Graph) (l : Lattice) (settings : SolverSettings) : Except SolveError Solution := do
  let cap ← (settings.stepCap g.nodes.size g.edges.size l.size).mapError .overflow
  let (solution, _) ← Spread.runAll g l { cap } g.components
  return solution

end Graph

end Enclave
