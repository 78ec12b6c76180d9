import Enclave.Dependence.Graph

/-!
# Enclave.Dependence.Build

Putting a dependence graph together, step by step or from a whole program. A step that fails leaves
the graph as it was.
-/

namespace Enclave

inductive GraphError where
  | unknownNode (name : String)
  | conflictingKind (name : String) (existing requested : NodeKind)
deriving DecidableEq, Repr

namespace GraphError

def message : GraphError → String
  | .unknownNode name => s!"unknown node '{name}'"
  | .conflictingKind name existing requested =>
    s!"'{name}' is declared as a {existing.name} and as a {requested.name}"

def problem (e : GraphError) : Problem := .ofClass .invalidFormat e.message

end GraphError

namespace Edge

def absorb (e : Edge) (kind : DependenceKind) (location : Option Location) : Edge :=
  { e with
    kinds := e.kinds.insert kind
    location :=
      match e.location, location with
      | some a, some b => some (a.earlier b)
      | a, b => a.or b }

end Edge

namespace Graph

def addNode (g : Graph) (name : String) (kind : NodeKind) : Graph × NodeId :=
  ({ g with nodes := g.nodes.push { name, kind } }, g.nodes.size)

/-- The node of this name, added if there is none. A name has one kind only. -/
def ensure (g : Graph) (name : String) (kind : NodeKind) : Except GraphError (Graph × NodeId) :=
  match g.idOf? name with
  | none => .ok (g.addNode name kind)
  | some v =>
    match g.nodes[v]? with
    | none => .error (.unknownNode name)
    | some node =>
      if node.kind = kind then .ok (g, v) else .error (.conflictingKind name node.kind kind)

/-- The node of this name; a name not met before is that of a function. -/
def mention (g : Graph) (name : String) : Graph × NodeId :=
  match g.idOf? name with
  | some v => (g, v)
  | none => g.addNode name .function

def modifyNode (g : Graph) (v : NodeId) (f : Node → Node) : Graph :=
  { g with nodes := g.nodes.modify v f }

def find (g : Graph) (name : String) : Except GraphError NodeId :=
  match g.idOf? name with
  | some v => .ok v
  | none => .error (.unknownNode name)

/-- Gives a node its location, unless it has one. -/
def locate (g : Graph) (name : String) (location : Location) : Except GraphError Graph := do
  let v ← g.find name
  return g.modifyNode v fun n => { n with location := n.location.or (some location) }

/-- Gives a node its label, and the label's location unless it has one. -/
def attach (g : Graph) (name : String) (label : Label) : Except GraphError Graph := do
  let v ← g.find name
  return g.modifyNode v fun n =>
    { n with location := n.location.or label.location, label := some label }

def addEdge (g : Graph) (u v : NodeId) (kind : DependenceKind) (location : Option Location) :
    Graph × EdgeId :=
  match g.edgeBetween? u v with
  | some e => ({ g with edges := g.edges.modify e (·.absorb kind location) }, e)
  | none =>
    ({ g with edges := g.edges.push ⟨u, v, .single kind, location⟩ }, g.edges.size)

def connect (g : Graph) (source target : String) (kind : DependenceKind)
    (location : Option Location) : Graph × EdgeId :=
  let (g, u) := g.mention source
  let (g, v) := g.mention target
  g.addEdge u v kind location

def siteName (caller callee : String) (site : Location) : Except Overflow String := do
  let place ← site.render
  return s!"{caller}->{callee}@{place}"

def callAt (g : Graph) (caller callee name : String) (site : Location) :
    Except GraphError Graph := do
  let (g, v) ← g.ensure name .callSite
  let g := g.modifyNode v fun n => { n with location := some site }
  let (g, _) := g.connect caller name .call (some site)
  let (g, _) := g.connect name callee .call (some site)
  return g

/-- Adds a call: a call at a known place goes through a node for that place. -/
def call (g : Graph) (caller callee : String) :
    Option Location → Except Overflow (Except GraphError Graph)
  | none => .ok (.ok (g.connect caller callee .call none).1)
  | some site => do return g.callAt caller callee (← siteName caller callee site) site

def declare (g : Graph) (kind : NodeKind) (d : Declaration) : Except GraphError Graph := do
  let (g, _) ← g.ensure d.name kind
  match d.location with
  | some source => g.locate d.name (.ofSource source)
  | none => return g

def addLabelled (g : Graph) (kind : NodeKind) (entry : String × Label) :
    Except GraphError Graph := do
  let (g, _) ← g.ensure entry.1 kind
  g.attach entry.1 entry.2

def addCall (g : Graph) (c : CallDecl) : Except Overflow (Except GraphError Graph) :=
  g.call c.caller c.callee (c.site.map .ofSource)

def addFlow (kind : DependenceKind) (g : Graph) (f : FlowDecl) : Graph :=
  (g.connect f.source f.target kind (f.location.map .ofSource)).1

end Graph

/-- A graph under construction and what went wrong with it. -/
structure Draft where
  graph : Graph := {}
  errors : List GraphError := []
deriving DecidableEq

namespace Draft

/-- Goes on with the graph of a step, or notes why the step failed. -/
def follow (d : Draft) : Except GraphError Graph → Draft
  | .ok g => { d with graph := g }
  | .error e => { d with errors := d.errors ++ [e] }

def declare (kind : NodeKind) (d : Draft) (decl : Declaration) : Draft :=
  d.follow (d.graph.declare kind decl)

def addLabelled (kind : NodeKind) (d : Draft) (entry : String × Label) : Draft :=
  d.follow (d.graph.addLabelled kind entry)

def addCall (d : Draft) (c : CallDecl) : Except Overflow Draft := do
  return d.follow (← d.graph.addCall c)

end Draft

namespace Graph

def declared (ir : IrFacts) (labels : Labels) : Draft :=
  let d := ir.functions.foldl (Draft.declare .function) {}
  let d := ir.globals.foldl (Draft.declare .global) d
  let d := labels.functions.toList.foldl (Draft.addLabelled .function) d
  labels.globals.toList.foldl (Draft.addLabelled .global) d

/--
The graph of a program. Declarations come before dependences, so that a name that stands in both
has its declared kind.
-/
def ofProgram (ir : IrFacts) (pdg : PdgFacts) (labels : Labels) :
    Except Overflow (Except (List GraphError) Graph) := do
  let d ← ir.calls.foldlM Draft.addCall (declared ir labels)
  match d.errors with
  | [] =>
    let g := ir.defUse.foldl (addFlow .data) d.graph
    return .ok (pdg.control.foldl (addFlow .control) g)
  | errors => return .error errors

end Graph

end Enclave
