import Enclave.Toml.Basic
import Enclave.Toml.Text

/-!
# Enclave.Toml.Reader

Reading documents. A document is a list of statements, one to a line; only arrays and strings go on
over the end of a line.
-/

namespace Enclave

namespace Toml

/-- Blank space, ends of lines and comments, as they may stand in an array. -/
def skipBreaks : Nat → List Char → List Char
  | 0, cs => cs
  | fuel + 1, cs =>
    let rest := skipComment (skipSpace cs)
    match newline? rest with
    | some rest => skipBreaks fuel rest
    | none => rest

def isWordChar (c : Char) : Bool :=
  c.isAlphanum || c = '+' || c = '-' || c = '.' || c = '_'

def valueOfWord (word : List Char) : Option Toml :=
  if word = ['t', 'r', 'u', 'e'] then some (.bool true)
  else if word = ['f', 'a', 'l', 's', 'e'] then some (.bool false)
  else
    match integer? word with
    | some z => if fitsWord z then some (.int z) else none
    | none => if isFraction word then some .fraction else none

def readWord (cs : List Char) : Option (Toml × List Char) :=
  match readTime cs with
  | some rest => some (.time, rest)
  | none => (valueOfWord (cs.takeWhile isWordChar)).map fun v => (v, cs.dropWhile isWordChar)

mutual

/-- A value; `room` is how many more brackets may be opened. -/
def readValue : Nat → Nat → List Char → Option (Toml × List Char)
  | 0, _, _ => none
  | fuel + 1, room, cs =>
    match cs with
    | '[' :: rest =>
      match room with
      | 0 => none
      | room + 1 => do
        let (items, rest) ← readItems fuel room rest
        return (.arr items, rest)
    | '{' :: rest =>
      match room with
      | 0 => none
      | room + 1 => do
        let (pairs, rest) ← readPairs fuel room (skipSpace rest)
        let members ← pairs.foldlM (fun ms p => addPair p.1 p.2 ms) []
        return (.table .braces members, rest)
    | '"' :: _ | '\'' :: _ => (readString cs).map fun p => (.text (String.ofList p.1), p.2)
    | _ => readWord cs

def readItems : Nat → Nat → List Char → Option (List Toml × List Char)
  | 0, _, _ => none
  | fuel + 1, room, cs =>
    match skipBreaks (cs.length + 1) cs with
    | ']' :: rest => some ([], rest)
    | cs => do
      let (item, rest) ← readValue fuel room cs
      match skipBreaks (rest.length + 1) rest with
      | ']' :: rest => return ([item], rest)
      | ',' :: rest => do
        let (items, rest) ← readItems fuel room rest
        return (item :: items, rest)
      | _ => none

/-- The pairs between braces, none of which may be followed by a comma alone. -/
def readPairs : Nat → Nat → List Char → Option (List (List String × Toml) × List Char)
  | 0, _, _ => none
  | fuel + 1, room, cs =>
    match cs with
    | '}' :: rest => some ([], rest)
    | cs => readMorePairs fuel room cs

def readMorePairs : Nat → Nat → List Char → Option (List (List String × Toml) × List Char)
  | 0, _, _ => none
  | fuel + 1, room, cs => do
    let (pair, rest) ← readPair fuel room cs
    match skipSpace rest with
    | '}' :: rest => return ([pair], rest)
    | ',' :: rest => do
      let (pairs, rest) ← readMorePairs fuel room rest
      return (pair :: pairs, rest)
    | _ => none

def readPair : Nat → Nat → List Char → Option ((List String × Toml) × List Char)
  | 0, _, _ => none
  | fuel + 1, room, cs => do
    let (key, rest) ← readKey cs
    match rest with
    | '=' :: rest => do
      let (value, rest) ← readValue fuel room (skipSpace rest)
      return ((key, value), rest)
    | _ => none

end

/-- What a line says, and what follows it on the line. -/
def readStatement (cs : List Char) : Option (Statement × List Char) :=
  match cs with
  | '[' :: '[' :: rest => do
    let (key, rest) ← readKey rest
    match rest with
    | ']' :: ']' :: rest => return (.nextHeader key, rest)
    | _ => none
  | '[' :: rest => do
    let (key, rest) ← readKey rest
    match rest with
    | ']' :: rest => return (.header key, rest)
    | _ => none
  | cs => do
    let (pair, rest) ← readPair (4 * cs.length + 4) maxNesting cs
    return (.pair pair.1 pair.2, rest)

def readStatements : Nat → List Char → Option (List Statement)
  | 0, _ => none
  | fuel + 1, cs =>
    match skipBreaks (cs.length + 1) cs with
    | [] => some []
    | cs => do
      let (statement, rest) ← readStatement cs
      match skipComment (skipSpace rest) with
      | [] => return [statement]
      | rest => return statement :: (← readStatements fuel (← newline? rest))

def skipByteOrderMark : List Char → List Char
  | c :: cs => if c.toNat = 0xfeff then cs else c :: cs
  | [] => []

def read (s : String) : Option Members :=
  let cs := skipByteOrderMark s.toList
  (readStatements (cs.length + 1) cs).bind document

end Toml

end Enclave
