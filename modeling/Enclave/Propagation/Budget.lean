import Enclave.Overflow
import Enclave.Problem

/-!
# Enclave.Propagation.Budget

A bound on the steps that propagation may take, and what stops propagation.
-/

namespace Enclave

inductive SolveError where
  | resourceExhausted (cap : Nat)
  | noLevels (nodes : Nat)
  | overflow (cause : Overflow)
deriving DecidableEq, Repr

namespace SolveError

def message : SolveError → String
  | .resourceExhausted cap => s!"propagation stopped after {cap} steps"
  | .noLevels nodes => s!"{nodes} program elements but no levels are declared"
  | .overflow cause => cause.message

end SolveError

/-- Steps taken out of a fixed number. -/
structure Budget where
  cap : Nat
  used : Nat := 0
deriving DecidableEq, Repr

namespace Budget

def left (b : Budget) : Nat := b.cap - b.used

def spent (b : Budget) : Budget := { b with used := b.cap }

def take (b : Budget) : Except SolveError Budget :=
  if b.used < b.cap then .ok { b with used := b.used + 1 } else .error (.resourceExhausted b.cap)

end Budget

structure SolverSettings where
  /-- The most steps to take; without it the size of the problem decides. -/
  maxSteps : Option UInt64 := none
  /-- Components may be solved at the same time, which changes no answer. -/
  parallel : Bool := true
deriving DecidableEq, Repr

namespace SolverSettings

/-- The steps allowed on a graph: each level may cross each edge and start at each node once. -/
def stepCap (s : SolverSettings) (nodes edges levels : Nat) : Except Overflow Nat := do
  let size ← addBelow word64 edges nodes
  return match s.maxSteps with
  | some cap => cap.toNat
  | none => min (size * levels) (word64 - 1)

end SolverSettings

end Enclave
