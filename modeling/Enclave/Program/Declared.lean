import Enclave.Data.SortedMap
import Enclave.Source.Location

/-!
# Enclave.Program.Declared

What a program declares about itself: the labels of its functions and globals, by level name, and
the facts a compiler found (functions, globals, calls, data and control dependences). Nothing is
checked here; every part can be put together from several files.
-/

namespace Enclave

/-- The taints of a function: the levels its result, its arguments and its body may have. -/
structure TaintDecl where
  returns : Option (List String) := none
  arguments : Option (List String) := none
  code : Option (List String) := none
deriving DecidableEq, Repr

structure ElementDecl where
  level : Option String := none
  taint : Option TaintDecl := none
  location : Option Source := none
deriving DecidableEq, Repr

namespace ElementDecl

def levelNames (e : ElementDecl) : List String :=
  e.level.toList ++ e.taint.toList.flatMap fun t =>
    [t.returns, t.arguments, t.code].flatMap fun names => names.getD []

end ElementDecl

structure LabelDecls where
  /-- When given, the only levels there are. -/
  levels : Option (List String) := none
  functions : SortedMap String ElementDecl := ∅
  globals : SortedMap String ElementDecl := ∅
deriving DecidableEq

namespace LabelDecls

def referencedLevels (d : LabelDecls) : SortedSet String :=
  .ofList ((d.functions.values ++ d.globals.values).flatMap (·.levelNames))

def declares (d : LabelDecls) (name : String) : Bool :=
  d.functions.contains name || d.globals.contains name

end LabelDecls

/-- Declarations put together so far, and the names that were declared again. -/
structure Merged where
  decls : LabelDecls
  repeated : List String := []
deriving DecidableEq

namespace Merged

def addFunction (m : Merged) (entry : String × ElementDecl) : Merged :=
  if m.decls.declares entry.1 then
    { m with repeated := m.repeated ++ [entry.1] }
  else
    { m with decls.functions := m.decls.functions.insert entry.1 entry.2 }

def addGlobal (m : Merged) (entry : String × ElementDecl) : Merged :=
  if m.decls.declares entry.1 then
    { m with repeated := m.repeated ++ [entry.1] }
  else
    { m with decls.globals := m.decls.globals.insert entry.1 entry.2 }

end Merged

namespace LabelDecls

/-- Adds the declarations of `other`. A name that has a declaration keeps it. -/
def merge (d other : LabelDecls) : Merged :=
  let levels :=
    match other.levels with
    | some more => some (d.levels.getD [] ++ more)
    | none => d.levels
  let start : Merged := { decls := { d with levels } }
  other.globals.toList.foldl Merged.addGlobal
    (other.functions.toList.foldl Merged.addFunction start)

end LabelDecls

structure Declaration where
  name : String
  location : Option Source := none
deriving DecidableEq, Repr

structure CallDecl where
  caller : String
  callee : String
  site : Option Source := none
deriving DecidableEq, Repr

structure FlowDecl where
  source : String
  target : String
  location : Option Source := none
deriving DecidableEq, Repr

structure IrFacts where
  functions : List Declaration := []
  globals : List Declaration := []
  calls : List CallDecl := []
  defUse : List FlowDecl := []
deriving DecidableEq, Repr

namespace IrFacts

def append (a b : IrFacts) : IrFacts :=
  { functions := a.functions ++ b.functions
    globals := a.globals ++ b.globals
    calls := a.calls ++ b.calls
    defUse := a.defUse ++ b.defUse }

end IrFacts

structure PdgFacts where
  control : List FlowDecl := []
deriving DecidableEq, Repr

namespace PdgFacts

def append (a b : PdgFacts) : PdgFacts := { control := a.control ++ b.control }

end PdgFacts

structure Program where
  labels : LabelDecls := {}
  ir : IrFacts := {}
  pdg : PdgFacts := {}
deriving DecidableEq

namespace Program

def merge (p other : Program) : Program × List String :=
  let merged := p.labels.merge other.labels
  ({ labels := merged.decls, ir := p.ir.append other.ir, pdg := p.pdg.append other.pdg },
    merged.repeated)

end Program

end Enclave
