import Enclave.Files.Access
import Enclave.Partition.Analysis
import Enclave.Toml.Reader

/-!
# Enclave.Command.Settings

Settings of a run, as a file sets them. What the file leaves out has a value of its own, and what
it holds beyond that is ignored.
-/

namespace Enclave

structure Settings where
  /-- Reported with the partition. -/
  sourcePath : String := "."
  /-- The level of elements that no constraint reaches. -/
  defaultLevel : Option String := none
  maxSteps : Option UInt64 := none
  parallel : Bool := true
  levels : List String := []
  order : List (String × String) := []
  exclusive : List (String × String) := []
  suffixes : Suffixes := {}
  outputDir : Option String := none
  endpoint : Option String := none
  timeoutSeconds : UInt64 := 10
deriving DecidableEq, Repr

namespace Toml

def asText? : Toml → Option String
  | .text s => some s
  | _ => none

def asBool? : Toml → Option Bool
  | .bool b => some b
  | _ => none

def asUInt64? : Toml → Option UInt64
  | .int z => if 0 ≤ z then some (.ofNat z.toNat) else none
  | _ => none

def asList? {α : Type} (f : Toml → Option α) : Toml → Option (List α)
  | .arr items => items.mapM f
  | _ => none

/-- The first two texts of an array. -/
def asPair? : Toml → Option (String × String)
  | .arr (a :: b :: _) => do return (← asText? a, ← asText? b)
  | _ => none

/-- The members of a section. An array gives them in order, and in a time there are none. -/
def asSection? (names : List String) : Toml → Option Members
  | .table _ members => some members
  | .arr items => some (names.zip items)
  | .time => some []
  | _ => none

def orElse {α : Type} (ms : Members) (name : String) (default : α) (f : Toml → Option α) :
    Option α :=
  match ms.lookup name with
  | none => some default
  | some v => f v

def optional {α : Type} (ms : Members) (name : String) (f : Toml → Option α) : Option (Option α) :=
  orElse ms name none fun v => (f v).map some

end Toml

namespace Settings

open Toml

def ofMembers (ms : Members) : Option Settings := do
  let default : Settings := {}
  let section? (name : String) (names : List String) := orElse ms name [] (asSection? names)
  let analysis ← section? "analysis" ["source_path", "default_level", "max_steps", "parallel"]
  let lattice ← section? "lattice" ["levels", "order", "exclusive"]
  let inputs ← section? "inputs" ["annotations", "ir", "pdg"]
  let output ← section? "output" ["dir", "endpoint", "timeout_secs"]
  return {
    sourcePath := ← orElse analysis "source_path" default.sourcePath asText?
    defaultLevel := ← optional analysis "default_level" asText?
    maxSteps := ← optional analysis "max_steps" asUInt64?
    parallel := ← orElse analysis "parallel" default.parallel asBool?
    levels := ← orElse lattice "levels" [] (asList? asText?)
    order := ← orElse lattice "order" [] (asList? asPair?)
    exclusive := ← orElse lattice "exclusive" [] (asList? asPair?)
    suffixes := {
      labels := ← orElse inputs "annotations" default.suffixes.labels asText?
      ir := ← orElse inputs "ir" default.suffixes.ir asText?
      pdg := ← orElse inputs "pdg" default.suffixes.pdg asText? }
    outputDir := ← optional output "dir" asText?
    endpoint := ← optional output "endpoint" asText?
    timeoutSeconds := ← orElse output "timeout_secs" default.timeoutSeconds asUInt64? }

def read (text : String) : Option Settings := (Toml.read text).bind ofMembers

def analysis (s : Settings) : AnalysisSettings where
  lattice := ⟨s.levels, s.order, s.exclusive, s.defaultLevel⟩
  sourcePath := s.sourcePath
  solver := ⟨s.maxSteps, s.parallel⟩

/-- How long to wait for a peer, at least a second. -/
def timeout (s : Settings) : Nat := max s.timeoutSeconds.toNat 1

def fileName : String := "cle.toml"

end Settings

inductive SettingsError where
  | unreadable (path cause : String)
  | malformed (path : String)
deriving DecidableEq, Repr

namespace SettingsError

def activity : SettingsError → String
  | .unreadable path _ => s!"reading {path}"
  | .malformed path => s!"parsing {path}"

def message (e : SettingsError) : String :=
  match e with
  | .unreadable _ cause => s!"{e.activity}: {cause}"
  | .malformed _ => s!"{e.activity}: not a settings file"

end SettingsError

namespace Settings

variable {m : Type → Type} [Monad m]

def load (files : FileAccess m) (path : String) : m (Except SettingsError Settings) := do
  match (← files.read path).text? with
  | .error cause => return .error (.unreadable path cause)
  | .ok text =>
    match Settings.read text with
    | some s => return .ok s
    | none => return .error (.malformed path)

/-- The settings in the first of the directories that has a file of them, and that directory. -/
def search (files : FileAccess m) :
    List String → m (Except SettingsError (Settings × Option String))
  | [] => return .ok ({}, none)
  | dir :: dirs => do
    let path := Path.join dir fileName
    if ← files.present path then
      return (← load files path).map fun s => (s, some dir)
    else search files dirs

def nearest (files : FileAccess m) (dir : String) :
    m (Except SettingsError (Settings × Option String)) :=
  search files (Path.ancestors dir)

end Settings

end Enclave
