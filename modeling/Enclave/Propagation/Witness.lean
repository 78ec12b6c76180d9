import Enclave.Propagation.Origin

/-!
# Enclave.Propagation.Witness

Evidence that a program cannot be partitioned: two seeds whose levels meet at a node and cannot be
there together, or a level that reaches a function whose body may not have it.
-/

namespace Enclave

inductive ConflictKind where
  | data
  | control
  | call
  | taint
deriving DecidableEq, Repr

namespace ConflictKind

def rank : ConflictKind → Nat
  | .data => 0
  | .control => 1
  | .call => 2
  | .taint => 3

def all : List ConflictKind := [.data, .control, .call, .taint]

def title : ConflictKind → String
  | .data => "Unresolvable Data Conflict"
  | .control => "Unresolvable Control Conflict"
  | .call => "Unresolvable Call Conflict"
  | .taint => "Unresolvable Taint Conflict"

def ofTitle? (s : String) : Option ConflictKind := all.find? (·.title == s)

/-- The kind of conflict that an edge brings: data before control before call. -/
def ofKinds (kinds : Kinds) : ConflictKind :=
  if kinds.data then .data else if kinds.control then .control else .call

end ConflictKind

/-- One side of a witness: a level, the seed it came from and the edges between. -/
structure Side where
  seed : NodeId
  level : Level
  distance : Nat
deriving DecidableEq, Repr

namespace Side

def ofFact (a : Level) (o : Origin) : Side := ⟨o.seed, a, o.distance⟩

end Side

structure Witness where
  kind : ConflictKind
  /-- The level that arrived. -/
  incoming : Side
  /-- The level that was there, or what the body of the function allows. -/
  existing : Side
  meeting : NodeId
deriving DecidableEq, Repr

namespace Witness

def combinedDistance (w : Witness) : Except Overflow Nat :=
  addBelow word32 w.incoming.distance w.existing.distance

/-- The two seeds, the smaller first. -/
def pair (w : Witness) : NodeId × NodeId :=
  if w.incoming.seed ≤ w.existing.seed then (w.incoming.seed, w.existing.seed)
  else (w.existing.seed, w.incoming.seed)

end Witness

attribute [local instance] lexOrd

/-- Witnesses, one for each pair of seeds. -/
structure WitnessSet where
  byPair : SortedMap (NodeId × NodeId) Witness := ∅
deriving DecidableEq

namespace WitnessSet

def isEmpty (s : WitnessSet) : Bool := s.byPair.isEmpty

def size (s : WitnessSet) : Nat := s.byPair.size

def toList (s : WitnessSet) : List Witness := s.byPair.values

/-- Keeps the witness unless one of the same pair is as short. -/
def record (s : WitnessSet) (w : Witness) : Except Overflow WitnessSet :=
  match s.byPair.get? w.pair with
  | none => return ⟨s.byPair.insert w.pair w⟩
  | some kept => do
    let old ← kept.combinedDistance
    let new ← w.combinedDistance
    return if old ≤ new then s else ⟨s.byPair.insert w.pair w⟩

def recordAll (s : WitnessSet) (ws : List Witness) : Except Overflow WitnessSet :=
  ws.foldlM record s

end WitnessSet

end Enclave
