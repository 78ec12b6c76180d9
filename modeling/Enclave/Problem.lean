/-!
# Enclave.Problem

What is reported when an input cannot be analysed: a class of failure, numbered as the operating
system numbers the same failure, with a text that says what went wrong.
-/

namespace Enclave

inductive ProblemClass where
  | missingFile
  | unreadable
  | resourceExhausted
  | notADirectory
  | notAFile
  | invalidFormat
  | noLevels
  | unknownLevel
  | malformedLabel
deriving DecidableEq, Repr

namespace ProblemClass

def all : List ProblemClass :=
  [.missingFile, .unreadable, .resourceExhausted, .notADirectory, .notAFile, .invalidFormat,
    .noLevels, .unknownLevel, .malformedLabel]

def errno : ProblemClass → Int32
  | .missingFile => 2
  | .unreadable => 5
  | .resourceExhausted => 12
  | .notADirectory => 20
  | .notAFile => 21
  | .invalidFormat => 22
  | .noLevels => 42
  | .unknownLevel => 61
  | .malformedLabel => 74

def title : ProblemClass → String
  | .missingFile => "No such file or directory"
  | .unreadable => "Input/output error"
  | .resourceExhausted => "Propagation step limit exceeded"
  | .notADirectory => "Not a directory"
  | .notAFile => "Is a directory"
  | .invalidFormat => "Invalid input format"
  | .noLevels => "No levels available"
  | .unknownLevel => "Unknown level"
  | .malformedLabel => "Malformed annotation"

def ofErrno? (errno : Int32) : Option ProblemClass := all.find? (·.errno == errno)

def render (c : ProblemClass) : String := s!"{c.title} (ERRNO: {c.errno})"

end ProblemClass

structure Problem where
  errno : Int32
  title : String
  detail : String
deriving DecidableEq, Repr

namespace Problem

def ofClass (c : ProblemClass) (detail : String) : Problem := ⟨c.errno, c.title, detail⟩

def class? (p : Problem) : Option ProblemClass := ProblemClass.ofErrno? p.errno

def render (p : Problem) : String := s!"{p.title} (ERRNO: {p.errno}). {p.detail}"

end Problem

end Enclave
