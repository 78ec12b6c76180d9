import Enclave.Level.Lattice
import Enclave.Program.Declared

/-!
# Enclave.Level.Label

Labels with their level names looked up in a lattice. A declaration is resolved only when nothing is
wrong with it, and everything that is wrong is reported.
-/

namespace Enclave

/-- The levels allowed in each place of a function; a place without a set is not constrained. -/
structure Taint where
  returns : Option (SortedSet Level) := none
  arguments : Option (SortedSet Level) := none
  code : Option (SortedSet Level) := none
deriving DecidableEq

namespace Taint

def singleReturn? (t : Taint) : Option Level := t.returns.bind (·.single?)

def singleCode? (t : Taint) : Option Level := t.code.bind (·.single?)

def admitsArgument (t : Taint) (a : Level) : Bool := t.arguments.any (·.contains a)

def allowsCode (t : Taint) (a : Level) : Bool := t.code.all (·.contains a)

end Taint

structure Label where
  level : Option Level := none
  taint : Option Taint := none
  location : Option Location := none
deriving DecidableEq

namespace Label

/-- The level an element starts with: its own, or else the only one its body may have. -/
def seed? (l : Label) : Option Level := l.level.or (l.taint.bind (·.singleCode?))

end Label

structure Labels where
  functions : SortedMap String Label := ∅
  globals : SortedMap String Label := ∅
deriving DecidableEq

inductive ElementKind where
  | function
  | global
deriving DecidableEq, Repr

namespace ElementKind

def name : ElementKind → String
  | .function => "function"
  | .global => "global"

end ElementKind

inductive TaintPlace where
  | returns
  | arguments
  | code
deriving DecidableEq, Repr

namespace TaintPlace

def name : TaintPlace → String
  | .returns => "return taint"
  | .arguments => "argument taint"
  | .code => "code taint"

end TaintPlace

inductive LabelError where
  | missingTaints (name : String) (missing : List TaintPlace)
  | taintOnGlobal (name : String)
  | emptyTaint (kind : ElementKind) (name : String) (place : TaintPlace)
  | levelOutsideCode (name : String) (level : String)
  | unknownLevel (kind : ElementKind) (name : String) (level : String)
  | repeated (name : String)
deriving DecidableEq, Repr

namespace LabelError

def message : LabelError → String
  | .missingTaints name missing =>
    let places := " or ".intercalate (missing.map (·.name))
    s!"function '{name}' declares a return taint but no {places}"
  | .taintOnGlobal name => s!"global '{name}' declares taints; taints only apply to functions"
  | .emptyTaint kind name place => s!"{kind.name} '{name}' has an empty {place.name} set"
  | .levelOutsideCode name level =>
    s!"function '{name}' is declared at level '{level}' outside its code taint"
  | .unknownLevel kind name level => s!"{kind.name} '{name}' refers to unknown level '{level}'"
  | .repeated name => s!"'{name}' is annotated more than once"

def problem (e : LabelError) : Problem :=
  match e with
  | .unknownLevel _ _ _ => .ofClass .unknownLevel e.message
  | _ => .ofClass .malformedLabel e.message

end LabelError

namespace TaintDecl

/-- The places that a return taint requires and that are not declared. -/
def missing (t : TaintDecl) : List TaintPlace :=
  if t.returns.isNone then []
  else (if t.arguments.isNone then [.arguments] else []) ++ (if t.code.isNone then [.code] else [])

/-- The levels of one place. Names that are not in the lattice are left out. -/
def levelSet (l : Lattice) : Option (List String) → Option (SortedSet Level)
  | none => none
  | some [] => none
  | some names => some (.ofList (names.filterMap l.lookup?))

def resolve (l : Lattice) (t : TaintDecl) : Taint :=
  ⟨levelSet l t.returns, levelSet l t.arguments, levelSet l t.code⟩

end TaintDecl

namespace ElementDecl

def unknownLevels (l : Lattice) (kind : ElementKind) (name : String) (names : List String) :
    List LabelError :=
  (names.filter fun n => (l.lookup? n).isNone).map (.unknownLevel kind name)

def placeErrors (l : Lattice) (kind : ElementKind) (name : String) (place : TaintPlace) :
    Option (List String) → List LabelError
  | none => []
  | some [] => [.emptyTaint kind name place]
  | some names => unknownLevels l kind name names

def taintErrors (l : Lattice) (kind : ElementKind) (name : String) (t : TaintDecl) :
    List LabelError :=
  (if t.missing.isEmpty then [] else [.missingTaints name t.missing])
    ++ placeErrors l kind name .returns t.returns
    ++ placeErrors l kind name .arguments t.arguments
    ++ placeErrors l kind name .code t.code

/-- The label of the declaration, as far as its level names are known. -/
def label (l : Lattice) (e : ElementDecl) : Label :=
  { level := e.level.bind l.lookup?
    taint := e.taint.map (·.resolve l)
    location := e.location.map .ofSource }

def placementErrors (l : Lattice) (name : String) (label : Label) : List LabelError :=
  match label.level, label.taint.bind (·.code) with
  | some a, some code => if code.contains a then [] else [.levelOutsideCode name (l.name a)]
  | _, _ => []

def errors (l : Lattice) (kind : ElementKind) (name : String) (e : ElementDecl) :
    List LabelError :=
  unknownLevels l kind name e.level.toList
    ++ e.taint.toList.flatMap (taintErrors l kind name)
    ++ placementErrors l name (e.label l)

def resolve (l : Lattice) (kind : ElementKind) (name : String) (e : ElementDecl) :
    Except (List LabelError) Label :=
  match e.errors l kind name with
  | [] => .ok (e.label l)
  | errors => .error errors

end ElementDecl

namespace LabelDecls

def functionErrors (l : Lattice) (entry : String × ElementDecl) : List LabelError :=
  entry.2.errors l .function entry.1

def globalErrors (l : Lattice) (entry : String × ElementDecl) : List LabelError :=
  if entry.2.taint.isSome then [.taintOnGlobal entry.1] else entry.2.errors l .global entry.1

def errors (l : Lattice) (d : LabelDecls) : List LabelError :=
  d.functions.toList.flatMap (functionErrors l) ++ d.globals.toList.flatMap (globalErrors l)

def resolve (l : Lattice) (d : LabelDecls) : Except (List LabelError) Labels :=
  match d.errors l with
  | [] => .ok ⟨d.functions.mapValues (·.label l), d.globals.mapValues (·.label l)⟩
  | errors => .error errors

end LabelDecls

end Enclave
