/-!
# Enclave.Command.Arguments

What the words of a command line ask for.
-/

namespace Enclave

structure InputArguments where
  labels : List String := []
  ir : List String := []
  pdg : List String := []
  dir : Option String := none
  sourcePath : Option String := none
deriving DecidableEq, Repr

inductive Command where
  | analyze (inputs : InputArguments) (outputDir endpoint : Option String)
  | diagnostics (inputs : InputArguments) (document : Option String)
deriving DecidableEq, Repr

structure Invocation where
  /-- The file of settings to take in place of the nearest one. -/
  settings : Option String
  command : Command
deriving DecidableEq, Repr

inductive CommandName where
  | analyze
  | diagnostics
  | help
deriving DecidableEq, Repr

inductive Request where
  | run (invocation : Invocation)
  /-- The help on a command, or on all of them. -/
  | help (topic : Option CommandName)
  | version
deriving DecidableEq, Repr

inductive UsageError where
  | unexpected (word : String)
  | missingValue (option : String)
  | emptyValue (option : String)
  | repeated (option : String)
  | missingCommand
deriving DecidableEq, Repr

def UsageError.message : UsageError → String
  | .unexpected word => s!"unexpected argument '{word}'"
  | .missingValue option => s!"a value is required for '--{option}'"
  | .emptyValue option => s!"the value of '--{option}' is empty"
  | .repeated option => s!"'--{option}' cannot be used more than once"
  | .missingCommand => "a command is required: analyze or diagnostics"

structure ValueOption where
  name : String
  otherName : Option String := none
  letter : Option Char := none
  isRepeatable : Bool := false
  mayBeEmpty : Bool := false
deriving DecidableEq, Repr

def settingsOption : ValueOption := { name := "config" }

def inputOptions : List ValueOption :=
  [{ name := "annotations", isRepeatable := true }, { name := "ir", isRepeatable := true },
    { name := "pdg", isRepeatable := true }, { name := "dir" },
    { name := "source-path", mayBeEmpty := true }]

namespace CommandName

def ofWord? : String → Option CommandName
  | "analyze" => some .analyze
  | "diagnostics" => some .diagnostics
  | "help" => some .help
  | _ => none

def options : Option CommandName → List ValueOption
  | none => [settingsOption]
  | some .analyze => settingsOption :: inputOptions ++
    [{ name := "output-dir", letter := some 'o' },
      { name := "endpoint", otherName := some "zmq-uri", letter := some 'z', mayBeEmpty := true }]
  | some .diagnostics => settingsOption :: inputOptions ++ [{ name := "document" }]
  | some .help => []

end CommandName

namespace Arguments

/-- Values of options in their order. One that came as a word of its own waits until the next option
or the end before it is checked. -/
structure Given where
  values : List (String × String) := []
  waiting : Option (ValueOption × String) := none

namespace Given

def add (g : Given) (option : ValueOption) (value : String) : Except UsageError Given :=
  let isRepeated := (g.values.lookup option.name).isSome
  if isRepeated && !option.isRepeatable then .error (.repeated option.name)
  else if value.isEmpty && !option.mayBeEmpty then .error (.emptyValue option.name)
  else .ok { g with values := g.values ++ [(option.name, value)] }

def settle (g : Given) : Except UsageError Given :=
  match g.waiting with
  | none => .ok g
  | some (option, value) => ({ g with waiting := none } : Given).add option value

def all (g : Given) (name : String) : List String :=
  (g.values.filter (·.1 == name)).map (·.2)

def get? (g : Given) (name : String) : Option String := g.values.lookup name

def inputs (g : Given) : InputArguments :=
  ⟨g.all "annotations", g.all "ir", g.all "pdg", g.get? "dir", g.get? "source-path"⟩

end Given

inductive Stop where
  | usage (e : UsageError)
  | help (topic : Option CommandName)
  | version

structure State where
  command : Option CommandName := none
  /-- The command that help is asked on by name. -/
  topic : Option CommandName := none
  /-- What was given before the command. -/
  before : Given := {}
  /-- What was given since. -/
  given : Given := {}
  /-- An option whose value comes next. -/
  pending : Option ValueOption := none
  /-- No more options follow. -/
  isEnded : Bool := false

namespace State

def options (s : State) : List ValueOption := CommandName.options s.command

def refuse (word : String) : Except Stop State := .error (.usage (.unexpected word))

def give (s : State) (option : ValueOption) (value : String) : Except Stop State :=
  match s.given.add option value with
  | .ok given => .ok { s with given := given }
  | .error e => .error (.usage e)

/-- Letters after one dash; a letter with a value takes the rest. -/
def takeLetters (s : State) (word : String) : List Char → Except Stop State
  | [] => .ok s
  | c :: cs =>
    if c = 'v' then takeLetters s word cs
    else if c = 'h' then .error (.help s.command)
    else if c = 'V' && s.command.isNone then .error .version
    else
      match s.options.find? (·.letter == some c) with
      | none => refuse word
      | some option =>
        match cs with
        | [] => .ok { s with pending := some option }
        | '=' :: value => s.give option (String.ofList value)
        | value => s.give option (String.ofList value)

/-- A name after two dashes, perhaps with its value after an equals sign. -/
def takeName (s : State) (word : String) (cs : List Char) : Except Stop State :=
  let name := String.ofList (cs.takeWhile (· ≠ '='))
  let value? := match cs.dropWhile (· ≠ '=') with
    | [] => none
    | _ :: value => some (String.ofList value)
  match s.options.find? fun o => o.name == name || o.otherName == some name, value? with
  | some option, some value => s.give option value
  | some option, none => .ok { s with pending := some option }
  | none, some _ => refuse word
  | none, none =>
    if name = "verbose" then .ok s
    else if name = "help" then .error (.help s.command)
    else if name = "version" && s.command.isNone then .error .version
    else refuse word

def takeWord (s : State) (word : String) : Except Stop State :=
  match s.command, CommandName.ofWord? word with
  | none, some command =>
    if s.isEnded then refuse word else .ok { command := some command, before := s.given }
  | some .help, some topic =>
    if s.topic.isSome then refuse word else .ok { s with topic := some topic }
  | _, _ => refuse word

def takeOption (s : State) (word : String) : Except Stop State :=
  match word.toList, s.given.settle with
  | ['-', '-'], _ => .ok { s with isEnded := true }
  | '-' :: _ :: _, .error e => .error (.usage e)
  | '-' :: '-' :: name, .ok given => { s with given := given }.takeName word name
  | '-' :: c :: letters, .ok given => { s with given := given }.takeLetters word (c :: letters)
  | _, _ => s.takeWord word

def take (s : State) (word : String) : Except Stop State :=
  match s.pending, word.toList with
  | some option, '-' :: _ :: _ => .error (.usage (.missingValue option.name))
  | some option, _ =>
    .ok { s with pending := none, given := { s.given with waiting := some (option, word) } }
  | none, _ =>
    if s.isEnded || s.command == some .help then s.takeWord word else s.takeOption word

/-- What the words have asked for. Help on a command needs nothing else to be right. -/
def request (s : State) : Except UsageError Request := do
  if let some option := s.pending then throw (.missingValue option.name)
  match s.command with
  | none => .error .missingCommand
  | some .help => return .help s.topic
  | some .analyze =>
    let given ← s.given.settle
    let before ← s.before.settle
    return .run ⟨(given.get? "config").or (before.get? "config"),
      .analyze given.inputs (given.get? "output-dir") (given.get? "endpoint")⟩
  | some .diagnostics =>
    let given ← s.given.settle
    let before ← s.before.settle
    return .run ⟨(given.get? "config").or (before.get? "config"),
      .diagnostics given.inputs (given.get? "document")⟩

end State

def read (words : List String) : Except UsageError Request :=
  match words.foldlM State.take ({} : State) with
  | .ok s => s.request
  | .error (.help topic) => .ok (.help topic)
  | .error .version => .ok .version
  | .error (.usage e) => .error e

end Arguments

end Enclave
