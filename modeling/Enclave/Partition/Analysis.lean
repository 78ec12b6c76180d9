import Enclave.Dependence.Build
import Enclave.Partition.Assignment
import Enclave.Partition.Explanation
import Enclave.Propagation.Components

/-!
# Enclave.Partition.Analysis

The whole analysis of a program: its lattice, labels and graph are checked, levels are spread over
the graph, and the outcome is a partition or the conflicts that rule one out. Everything that is
wrong with the input is reported together.
-/

namespace Enclave

structure AnalysisSettings where
  lattice : LatticeSpec := {}
  /-- Reported with the partition, and in place of sources that are not known. -/
  sourcePath : String := ""
  solver : SolverSettings := {}
deriving DecidableEq, Repr

namespace SolveError

/-- Overflow ends an analysis; every other error is reported. -/
def problem : SolveError → Except Overflow Problem
  | .resourceExhausted cap =>
    .ok (.ofClass .resourceExhausted (resourceExhausted cap).message)
  | .noLevels nodes => .ok (.ofClass .noLevels (noLevels nodes).message)
  | .overflow cause => .error cause

end SolveError

structure Prepared where
  lattice : Lattice
  labels : Labels
  graph : Graph
deriving DecidableEq

namespace Analysis

/-- The levels of a program: those it declares, or else all that its labels mention. -/
def latticeFor (settings : AnalysisSettings) (decls : LabelDecls) : Except LatticeError Lattice :=
  Lattice.build (decls.levels.getD decls.referencedLevels.toList) settings.lattice

/-- Checks labels and graph together, so that the problems of both are found. -/
def prepareWith (l : Lattice) (p : Program) :
    Except Overflow (Except (List Problem) Prepared) := do
  let resolved := p.labels.resolve l
  let labels := resolved.toOption.getD {}
  let labelProblems :=
    match resolved with
    | .ok _ => []
    | .error errors => errors.map (·.problem)
  match ← Graph.ofProgram p.ir p.pdg labels with
  | .error errors => return .error (labelProblems ++ errors.map (·.problem))
  | .ok graph =>
    match labelProblems with
    | [] =>
      if l.isEmpty && 0 < graph.nodes.size then
        return .error [← (SolveError.noLevels graph.nodes.size).problem]
      else
        return .ok ⟨l, labels, graph⟩
    | problems => return .error problems

def prepare (settings : AnalysisSettings) (p : Program) :
    Except Overflow (Except (List Problem) Prepared) :=
  match latticeFor settings p.labels with
  | .error e => .ok (.error [e.problem])
  | .ok l => prepareWith l p

def failed (e : SolveError) : Except Overflow Outcome := do return .failure [← e.problem]

def solve (settings : AnalysisSettings) (p : Prepared) : Except Overflow Outcome :=
  match p.graph.solve p.lattice settings.solver with
  | .error e => failed e
  | .ok solution =>
    if solution.isConsistent then
      match Assignment.ofSolution p.graph p.lattice solution with
      | .error e => failed e
      | .ok assignment => do
        return .success (← assignment.topology p.graph p.lattice settings.sourcePath)
    else do
      return .conflict (← explain p.graph p.lattice solution settings.sourcePath)

end Analysis

def analyze (settings : AnalysisSettings) (p : Program) : Except Overflow Outcome := do
  match ← Analysis.prepare settings p with
  | .error problems => return .failure problems
  | .ok prepared => Analysis.solve settings prepared

end Enclave
