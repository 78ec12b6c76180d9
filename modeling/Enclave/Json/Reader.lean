import Enclave.Json.Basic
import Enclave.Json.Text

/-!
# Enclave.Json.Reader

Reading JSON documents. The grammar is strict: no comments, no trailing commas, no leading zeros, no
control characters in strings, nothing after the document.
-/

namespace Enclave

namespace Json

def isBlank (c : Char) : Bool := c = ' ' || c = '\n' || c = '\t' || c = '\r'

def skipBlank (cs : List Char) : List Char := cs.dropWhile isBlank

def readFraction : List Char → Option (Option (List Char) × List Char)
  | '.' :: cs =>
    match spanDigits cs with
    | ([], _) => none
    | (ds, rest) => some (some ds, rest)
  | cs => some (none, cs)

def readExponentDigits (cs : List Char) : Option (Int × List Char) :=
  let (negative, cs) :=
    match cs with
    | '-' :: cs => (true, cs)
    | '+' :: cs => (false, cs)
    | cs => (false, cs)
  match spanDigits cs with
  | ([], _) => none
  | (ds, rest) => some (if negative then -(natOfDigits ds : Int) else natOfDigits ds, rest)

def readExponent : List Char → Option (Option Int × List Char)
  | c :: cs =>
    if c = 'e' ∨ c = 'E' then (readExponentDigits cs).map fun p => (some p.1, p.2)
    else some (none, c :: cs)
  | [] => some (none, [])

/-- A number; one without fraction and exponent is an integer, minus zero apart. -/
def readNumber (cs : List Char) : Option (Json × List Char) :=
  let (negative, cs) :=
    match cs with
    | '-' :: cs => (true, cs)
    | cs => (false, cs)
  match spanDigits cs with
  | ([], _) => none
  | ('0' :: _ :: _, _) => none
  | (ds, rest) => do
    let (fraction, rest) ← readFraction rest
    let (exponent, rest) ← readExponent rest
    match fraction, exponent with
    | none, none =>
      let n := natOfDigits ds
      if negative then
        return (if n = 0 then .decimal true 0 0 else .int (-(n : Int)), rest)
      else
        return (.int n, rest)
    | _, _ =>
      let fs := fraction.getD []
      return (.decimal negative (natOfDigits (ds ++ fs)) (exponent.getD 0 - fs.length), rest)

mutual

/-- A value; the fuel bounds the nesting and the length of what is read. -/
def readValue : Nat → List Char → Option (Json × List Char)
  | 0, _ => none
  | fuel + 1, cs =>
    match skipBlank cs with
    | [] => none
    | c :: rest =>
      if c = '"' then (readText rest).map fun p => (.str p.1, p.2)
      else if c = '[' then readArray fuel rest
      else if c = '{' then readObject fuel rest
      else if c = 'n' then
        match rest with
        | 'u' :: 'l' :: 'l' :: rest => some (.null, rest)
        | _ => none
      else if c = 't' then
        match rest with
        | 'r' :: 'u' :: 'e' :: rest => some (.bool true, rest)
        | _ => none
      else if c = 'f' then
        match rest with
        | 'a' :: 'l' :: 's' :: 'e' :: rest => some (.bool false, rest)
        | _ => none
      else readNumber (c :: rest)

def readArray : Nat → List Char → Option (Json × List Char)
  | 0, _ => none
  | fuel + 1, cs =>
    match skipBlank cs with
    | ']' :: rest => some (.arr [], rest)
    | _ => do
      let (j, rest) ← readValue fuel cs
      let (js, rest) ← readItems fuel rest
      return (.arr (j :: js), rest)

def readItems : Nat → List Char → Option (List Json × List Char)
  | 0, _ => none
  | fuel + 1, cs =>
    match skipBlank cs with
    | ']' :: rest => some ([], rest)
    | ',' :: rest => do
      let (j, rest) ← readValue fuel rest
      let (js, rest) ← readItems fuel rest
      return (j :: js, rest)
    | _ => none

def readObject : Nat → List Char → Option (Json × List Char)
  | 0, _ => none
  | fuel + 1, cs =>
    match skipBlank cs with
    | '}' :: rest => some (.obj [], rest)
    | _ => do
      let (m, rest) ← readMember fuel cs
      let (ms, rest) ← readMembers fuel rest
      return (.obj (m :: ms), rest)

def readMembers : Nat → List Char → Option (List (Option String × Json) × List Char)
  | 0, _ => none
  | fuel + 1, cs =>
    match skipBlank cs with
    | '}' :: rest => some ([], rest)
    | ',' :: rest => do
      let (m, rest) ← readMember fuel rest
      let (ms, rest) ← readMembers fuel rest
      return (m :: ms, rest)
    | _ => none

def readMember : Nat → List Char → Option ((Option String × Json) × List Char)
  | 0, _ => none
  | fuel + 1, cs =>
    match skipBlank cs with
    | '"' :: rest => do
      let (name, rest) ← readText rest
      match skipBlank rest with
      | ':' :: rest =>
        let (j, rest) ← readValue fuel rest
        return ((name, j), rest)
      | _ => none
    | _ => none

end

/-- A whole document. Every step down takes a character or ends at once, so its length is enough. -/
def readChars (cs : List Char) : Option Json :=
  match readValue (3 * cs.length + 3) cs with
  | some (j, rest) => if (skipBlank rest).isEmpty then some j else none
  | none => none

def read (s : String) : Option Json := readChars s.toList

end Json

end Enclave
