import Enclave.Partition.Outcome

/-!
# Enclave.Report.Trace

Outcomes as text for people to read.
-/

namespace Enclave

namespace Source

/-- A place on one line; line zero stands for the file as a whole. -/
def traceLine (s : Source) : Except Overflow String :=
  match s with
  | .line file 0 _ => .ok file
  | s => (Location.ofSource s).render

end Source

namespace Conflict

def trace (c : Conflict) : Except Overflow String := do
  let places ← c.sources.mapM (·.traceLine)
  return String.join ([s!"{c.kind.title}: {c.description}\n"] ++
    places.map (fun place => s!"\tat {place}\n") ++
    c.remedies.map (fun remedy => s!"\thint: {remedy}\n"))

end Conflict

namespace Outcome

/-- The whole outcome; `output` is the file to which a partition is written. -/
def trace (o : Outcome) (output : Option String) : Except Overflow String :=
  match o with
  | .success _ =>
    match output with
    | some path => .ok s!"Success! Writing to {path}\n"
    | none => .ok "Success!\n"
  | .conflict conflicts => do return String.join (← conflicts.mapM (·.trace))
  | .failure problems => .ok (String.join (problems.map fun p => s!"Error: {p.render}\n"))

end Outcome

end Enclave
