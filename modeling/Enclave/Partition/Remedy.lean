import Enclave.Propagation.Witness
import Enclave.Text.Uppercase

/-!
# Enclave.Partition.Remedy

Advice on how to resolve a conflict. Every rule that fits gives one suggestion. No suggestion is
checked: following it may lead to another conflict.
-/

namespace Enclave

structure Dispute where
  kind : ConflictKind
  meeting : Node
  incoming : Level
  incomingName : String
  existingName : String
  incomingSeed : String
  existingSeed : String

namespace Dispute

def ofWitness (g : Graph) (l : Lattice) (w : Witness) : Option Dispute := do
  let meeting ← g.nodes[w.meeting]?
  return {
    kind := w.kind
    meeting
    incoming := w.incoming.level
    incomingName := uppercase (l.name w.incoming.level)
    existingName := uppercase (l.name w.existing.level)
    incomingSeed := g.name w.incoming.seed
    existingSeed := g.name w.existing.seed }

def overBoundary (d : Dispute) : Bool := d.kind == .data || d.kind == .call

def splitGlobal (d : Dispute) : Option String :=
  if d.meeting.kind == .global then
    some s!"Split global `{d.meeting.name}` into one copy per level ({d.incomingName} and {d.existingName})"
  else none

def crossDomain (d : Dispute) : Option String :=
  if d.overBoundary && d.meeting.kind == .function && d.meeting.taint?.isNone then
    some (s!"Make `{d.meeting.name}` a cross-domain function: declare argTaints including " ++
      s!"{d.incomingName}, a codeTaint and a returnTaint")
  else none

def admitArgument (d : Dispute) : Option String :=
  if d.overBoundary && d.meeting.taint?.any (fun t => !t.admitsArgument d.incoming) then
    some s!"Add {d.incomingName} to the argTaints of `{d.meeting.name}`"
  else none

def moveControl (d : Dispute) : Option String :=
  if d.kind == .control then
    some (s!"Move the control dependence on `{d.incomingSeed}` out of `{d.meeting.name}`, " ++
      s!"or place both at level {d.existingName}")
  else none

def widenCode (d : Dispute) : Option String :=
  if d.kind == .taint then
    some (s!"Widen the codeTaint of `{d.meeting.name}` to include {d.incomingName}, " ++
      s!"or keep {d.incomingName} data from reaching it")
  else none

def relabel (d : Dispute) : Option String :=
  if d.incomingSeed != d.existingSeed then
    some s!"Relabel `{d.incomingSeed}` or `{d.existingSeed}` so that both are at one level"
  else none

def advice (d : Dispute) : List String :=
  [d.splitGlobal, d.crossDomain, d.admitArgument, d.moveControl, d.widenCode,
    d.relabel].filterMap id

end Dispute

def remedies (g : Graph) (l : Lattice) (w : Witness) : List String :=
  ((Dispute.ofWitness g l w).map (·.advice)).getD []

end Enclave
