import Enclave.Channel.Exchange
import Enclave.Command.Arguments
import Enclave.Command.Settings
import Enclave.Json.Printer
import Enclave.Report.Diagnostics
import Enclave.Report.Trace

/-!
# Enclave.Command.Run

Commands: what they read, what they write, and how they end.
-/

namespace Enclave

variable {m : Type → Type} [Monad m]

namespace InputArguments

def named (a : InputArguments) (cwd : String) : InputPaths :=
  ⟨a.labels.map (Path.join cwd), a.ir.map (Path.join cwd), a.pdg.map (Path.join cwd)⟩

/-- The named files, which must cover every kind that is needed, or else those of a directory. -/
def resolve (a : InputArguments) (files : FileAccess m) (cwd : String) (suffixes : Suffixes) :
    m (Except (List InputError) InputPaths) := do
  let named := a.named cwd
  if named.isEmpty then
    let dir := (a.dir.map (Path.join cwd)).getD cwd
    return Discovery.discover dir suffixes (← files.scan dir)
  else return named.require.map fun _ => named

end InputArguments

namespace Inputs

def loadFrom (files : FileAccess m) (paths : InputPaths) :
    m (Except (List InputError) Program) := do
  let readings ← paths.toList.mapM fun file => do return (file.2, ← files.read file.2)
  return load (fun path => (readings.lookup path).getD .missing) paths

end Inputs

/-- Analyses the inputs; what is wrong with them is part of the outcome. -/
def evaluate (files : FileAccess m) (cwd : String) (settings : Settings) (inputs : InputArguments) :
    m (Except Overflow Outcome) := do
  let failed (errors : List InputError) : Outcome := .failure (errors.map (·.problem))
  match ← inputs.resolve files cwd settings.suffixes with
  | .error errors => return .ok (failed errors)
  | .ok paths =>
    match ← Inputs.loadFrom files paths with
    | .error errors => return .ok (failed errors)
    | .ok program =>
      let analysis := settings.analysis
      return analyze { analysis with
        sourcePath := inputs.sourcePath.getD analysis.sourcePath } program

namespace Outcome

def diagnosticsText (o : Outcome) (base : String) (document : Option String) :
    Except UriError String :=
  match document with
  | some document => .ok (Json.list (·.toJson) (o.diagnosticsFor document)).pretty
  | none => do return (Json.list (·.toJson) (← o.publications base)).pretty

def complaint? : Outcome → Option String
  | .success _ => none
  | .conflict conflicts => some s!"{conflicts.length} unresolvable conflict(s)"
  | .failure problems => some s!"{problems.length} input error(s)"

end Outcome

structure Completion where
  exitCode : Nat
  output : String
  errors : String
deriving DecidableEq, Repr

namespace Completion

def failed (report : String) (chain : List String) : Completion :=
  ⟨1, "", report ++ "error: " ++ String.intercalate ": " chain ++ "\n"⟩

def ofOverflow (o : Overflow) : Completion := ⟨101, "", s!"{o.message}\n"⟩

end Completion

def topologyPath (dir : String) : String := Path.join dir "topology.json"

namespace Command

def store (files : FileAccess m) (dir : String) (o : Outcome) : m (Except (List String) Unit) := do
  match o.topology? with
  | none => return .ok ()
  | some topology =>
    let path := topologyPath dir
    return (← files.save dir path topology.fileText).mapError fun e =>
      [s!"writing {path}", e.message, e.cause]

def deliver (exchange : Endpoint → Nat → ByteArray → m (Except ChannelError ByteArray))
    (timeout : Nat) (o : Outcome) : Option Endpoint → m (Except (List String) String)
  | none => return .ok ""
  | some endpoint => do
    let name := endpoint.render
    match ← o.send name (exchange endpoint timeout) with
    | .ok _ => return .ok s!"Analyzer results sent to {name}\n"
    | .error e => return .error (s!"delivering results to {name}" :: e.chain)

/-- The endpoint that is asked for, before any work is done. -/
def endpointOf : Option String → Except EndpointError (Option Endpoint)
  | none => .ok none
  | some text => do return some (← Endpoint.read text)

def report (o : Outcome) (dir : String) : Except Overflow String := do
  return (← o.trace (some (topologyPath dir))) ++ s!"digest: {o.digest}\n"

def finish (files : FileAccess m)
    (exchange : Endpoint → Nat → ByteArray → m (Except ChannelError ByteArray))
    (dir : String) (endpoint : Option Endpoint) (timeout : Nat) (o : Outcome) (reported : String) :
    m Completion := do
  match ← store files dir o with
  | .error chain => return .failed reported chain
  | .ok () =>
    match ← deliver exchange timeout o endpoint with
    | .error chain => return .failed reported chain
    | .ok sent =>
      match o.complaint? with
      | none => return ⟨0, "", reported ++ sent⟩
      | some complaint => return .failed (reported ++ sent) [complaint]

def runAnalysis (files : FileAccess m)
    (exchange : Endpoint → Nat → ByteArray → m (Except ChannelError ByteArray))
    (cwd : String) (settings : Settings) (inputs : InputArguments)
    (outputDir endpoint : Option String) : m Completion := do
  match endpointOf (endpoint.or settings.endpoint) with
  | .error e => return .failed "" ["invalid --endpoint", e.message]
  | .ok endpoint =>
    let dir := ((outputDir.or settings.outputDir).map (Path.join cwd)).getD cwd
    let outcome ← evaluate files cwd settings inputs
    match outcome.bind fun o => (report o dir).map fun reported => (o, reported) with
    | .error overflow => return .ofOverflow overflow
    | .ok (o, reported) => finish files exchange dir endpoint settings.timeout o reported

def runDiagnostics (files : FileAccess m) (cwd : String) (settings : Settings)
    (inputs : InputArguments) (document : Option String) : m Completion := do
  match ← evaluate files cwd settings inputs with
  | .error overflow => return .ofOverflow overflow
  | .ok o =>
    let problems := String.join (o.problems.map fun p => s!"Error: {p.render}\n")
    match o.diagnosticsText cwd document with
    | .ok text => return ⟨0, text ++ "\n", problems⟩
    | .error e => return .failed problems [e.message]

/-- The settings of a run: those of a named file, or the nearest ones. -/
def settingsFor (files : FileAccess m) (cwd : String) :
    Option String → m (Except SettingsError Settings)
  | some path => Settings.load files (Path.join cwd path)
  | none => do return (← Settings.nearest files cwd).map (·.1)

def run (files : FileAccess m)
    (exchange : Endpoint → Nat → ByteArray → m (Except ChannelError ByteArray))
    (cwd : String) (i : Invocation) : m Completion := do
  match ← settingsFor files cwd i.settings with
  | .error e => return .failed "" [e.message]
  | .ok settings =>
    match i.command with
    | .analyze inputs outputDir endpoint =>
      runAnalysis files exchange cwd settings inputs outputDir endpoint
    | .diagnostics inputs document => runDiagnostics files cwd settings inputs document

end Command

end Enclave
