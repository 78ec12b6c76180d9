import Enclave.Overflow

/-!
# Enclave.Source.Location

Places in source files. Inputs and results give a place in one of three shapes (`Source`): a line, a
line with a character, or a range. All of them become a `Location`, a range that remembers which of
the shapes it came from.

The `line` of a `Source` counts from one, as compilers do; characters and every position of a range
count from zero.
-/

namespace Enclave

structure Position where
  line : UInt32
  character : UInt32
deriving DecidableEq, Repr

structure TextRange where
  start : Position
  stop : Position
deriving DecidableEq, Repr

namespace TextRange

def point (p : Position) : TextRange := ⟨p, p⟩

end TextRange

/-- How much of a range was known when the place was recorded. -/
inductive Precision where
  | line
  | point
  | span
deriving DecidableEq, Repr

namespace Precision

def rank : Precision → Nat
  | .line => 0
  | .point => 1
  | .span => 2

def name : Precision → String
  | .line => "line"
  | .point => "point"
  | .span => "span"

end Precision

structure Location where
  file : String
  range : TextRange
  precision : Precision
deriving DecidableEq, Repr

inductive Source where
  | range (file : String) (range : TextRange)
  | line (file : String) (line : UInt32) (character : Option UInt32)
deriving DecidableEq, Repr

namespace Source

def file : Source → String
  | .range file _ => file
  | .line file _ _ => file

end Source

namespace Location

attribute [local instance] lexOrd

/-- What locations are ordered by: file, start, end, and then how precise they are. -/
def key (l : Location) : String × Nat × Nat × Nat × Nat × Nat :=
  (l.file, l.range.start.line.toNat, l.range.start.character.toNat,
    l.range.stop.line.toNat, l.range.stop.character.toNat, l.precision.rank)

instance : Ord Location := ⟨compareOn key⟩

/-- The earlier of two locations, the first of them when they are equal. -/
def earlier (a b : Location) : Location := if (compare b a).isLT then b else a

/-- The zero-based position of a one-based line; line zero counts as line one. -/
def positionOf (line character : UInt32) : Position :=
  ⟨if line = 0 then 0 else line - 1, character⟩

def ofSource : Source → Location
  | .range file range => ⟨file, range, .span⟩
  | .line file line none => ⟨file, .point (positionOf line 0), .line⟩
  | .line file line (some character) => ⟨file, .point (positionOf line character), .point⟩

/-- The one-based number of the line on which the place starts. -/
def lineNumber (l : Location) : Except Overflow Nat :=
  addBelow word32 l.range.start.line.toNat 1

def toSource (l : Location) : Except Overflow Source :=
  match l.precision with
  | .line => do return .line l.file (.ofNat (← l.lineNumber)) none
  | .point => do return .line l.file (.ofNat (← l.lineNumber)) (some l.range.start.character)
  | .span => return .range l.file l.range

def render (l : Location) : Except Overflow String := do
  let line ← l.lineNumber
  match l.precision with
  | .line => return s!"{l.file}:{line}"
  | .point | .span => return s!"{l.file}:{line}:{l.range.start.character}"

end Location

end Enclave
