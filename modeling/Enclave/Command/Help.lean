import Enclave.Command.Arguments

/-!
# Enclave.Command.Help

What each command is for, as pages of at most 100 columns. Explanations stand in a column of their
own and go on in it on the next line.
-/

namespace Enclave

namespace Help

def columns : Nat := 100

/-- Adds a word to lines, the last of which comes first. -/
def addWord (width : Nat) (lines : List String) (word : String) : List String :=
  match lines with
  | [] => [word]
  | line :: earlier =>
    if line.length + 1 + word.length ≤ width then (line ++ " " ++ word) :: earlier
    else word :: lines

def wrap (width : Nat) (text : String) : List String :=
  ((text.splitOn " ").foldl (addWord width) []).reverse

def spaces (n : Nat) : String := String.ofList (List.replicate n ' ')

def row (column : Nat) (item : String × String) : String :=
  let start := item.1 ++ spaces (column - item.1.length)
  start ++ String.intercalate ("\n" ++ spaces column) (wrap (columns - column) item.2) ++ "\n"

/-- Things under a title; the explanations start two columns after the longest of them. -/
def part (title : String) (items : List (String × String)) : String :=
  let width := (items.map (·.1.length)).foldl max 0
  "\n" ++ title ++ ":\n" ++ String.join (items.map (row (width + 2)))

def page (purpose usage : String) (parts : List String) : String :=
  purpose ++ "\n\nUsage: cle-analyzer " ++ usage ++ "\n" ++ String.join parts

def analyzePurpose : String := "Assign every function and global to an enclave level"

def diagnosticsPurpose : String := "Print conflicts as editor diagnostics (JSON)"

def helpPurpose : String := "Print this message or the help of the given subcommand(s)"

def commands : List (String × String) :=
  [("  analyze", analyzePurpose), ("  diagnostics", diagnosticsPurpose), ("  help", helpPurpose)]

def everywhere : List (String × String) :=
  [("  -v, --verbose...", "Increase log verbosity (-v info, -vv debug, -vvv trace)"),
    ("      --config <CONFIG>",
      "Configuration file (default: nearest cle.toml upward from the working directory)")]

def help : String × String := ("  -h, --help", "Print help")

def withInputs (own : List (String × String)) : List (String × String) :=
  ("      --annotations <ANNOTATIONS>", "Annotation file (*.cle.json); repeatable") ::
    everywhere ++
    [("      --ir <IR>", "IR file with calls and def-use facts (*.ir.json); repeatable"),
      ("      --pdg <PDG>", "PDG file with control dependences (*.pdg.json); repeatable"),
      ("      --dir <DIR>",
        "Directory to scan by suffix when no files are named (default: working directory)"),
      ("      --source-path <SOURCE_PATH>",
        "Source path reported in the topology (overrides cle.toml)")] ++
    own ++ [help]

def text : Option CommandName → String
  | none => page "Partition annotated programs into enclaves" "[OPTIONS] <COMMAND>"
    [part "Commands" commands,
      part "Options" (everywhere ++ [help, ("  -V, --version", "Print version")])]
  | some .analyze => page analyzePurpose "analyze [OPTIONS]"
    [part "Options" (withInputs
      [("  -o, --output-dir <OUTPUT_DIR>", "Directory topology.json is written to on success"),
        ("  -z, --endpoint <ENDPOINT>",
          "Deliver the result to tcp://host:port and wait for a reply [aliases: --zmq-uri]")])]
  | some .diagnostics => page diagnosticsPurpose "diagnostics [OPTIONS]"
    [part "Options" (withInputs
      [("      --document <DOCUMENT>",
        "Only diagnostics for this document; otherwise one publish notification per file")])]
  | some .help => page helpPurpose "help [COMMAND]..."
    [part "Arguments" [("  [COMMAND]...", "Print help for the subcommand(s)")]]

def version : String := "cle-analyzer 0.1.0\n"

end Help

end Enclave
