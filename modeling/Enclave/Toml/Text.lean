import Enclave.Json.Range
import Enclave.Json.Text

/-!
# Enclave.Toml.Text

The words of a document: keys, strings, numbers and times.
-/

namespace Enclave

namespace Toml

open Json

def isSpace (c : Char) : Bool := c = ' ' || c = '\t'

def skipSpace (cs : List Char) : List Char := cs.dropWhile isSpace

/-- A character that may stand for itself in a string or a comment. -/
def isPlain (c : Char) : Bool := c = '\t' || (0x20 ≤ c.toNat && c.toNat ≠ 0x7f)

def newline? : List Char → Option (List Char)
  | '\n' :: rest => some rest
  | '\r' :: '\n' :: rest => some rest
  | _ => none

def skipComment : List Char → List Char
  | '#' :: rest => rest.dropWhile isPlain
  | cs => cs

/-! ## Strings -/

def charOfHex (ds : List Char) : Option Char := do
  let n := (← ds.mapM hexValue?).foldl (fun n d => n * 16 + d) 0
  if n.isValidChar then some (Char.ofNat n) else none

def readHex (width : Nat) (cs : List Char) : Option (Char × List Char) :=
  if cs.length < width then none
  else (charOfHex (cs.take width)).map fun c => (c, cs.drop width)

def readEscape : List Char → Option (Char × List Char)
  | [] => none
  | c :: rest =>
    if c = 'b' then some ('\x08', rest)
    else if c = 't' then some ('\t', rest)
    else if c = 'n' then some ('\n', rest)
    else if c = 'f' then some ('\x0c', rest)
    else if c = 'r' then some ('\r', rest)
    else if c = '"' then some ('"', rest)
    else if c = '\\' then some ('\\', rest)
    else if c = 'u' then readHex 4 rest
    else if c = 'U' then readHex 8 rest
    else none

/-- A string on one line, after its quote. -/
def readBasic : Nat → List Char → Option (List Char × List Char)
  | 0, _ => none
  | fuel + 1, cs =>
    match cs with
    | [] => none
    | c :: rest =>
      if c = '"' then some ([], rest)
      else if c = '\\' then do
        let (d, rest) ← readEscape rest
        let (ds, rest) ← readBasic fuel rest
        return (d :: ds, rest)
      else if isPlain c then do
        let (ds, rest) ← readBasic fuel rest
        return (c :: ds, rest)
      else none

/-- A string without escapes, after its quote. -/
def readLiteral (cs : List Char) : Option (List Char × List Char) :=
  let isInner (c : Char) := isPlain c && c ≠ '\''
  match cs.dropWhile isInner with
  | '\'' :: rest => some (cs.takeWhile isInner, rest)
  | _ => none

def skipLines : Nat → List Char → List Char
  | 0, cs => cs
  | fuel + 1, cs =>
    match newline? (skipSpace cs) with
    | some rest => skipLines fuel rest
    | none => skipSpace cs

/-- Blank space that starts with the end of a line, as it may follow a backslash. -/
def skipFolded (cs : List Char) : Option (List Char) :=
  (newline? (skipSpace cs)).map fun rest => skipLines (rest.length + 1) rest

/-- A string over several lines, after its three quotes. Two quotes may stand before the end. -/
def readLines (quote : Char) (escapes : Bool) : Nat → List Char → Option (List Char × List Char)
  | 0, _ => none
  | fuel + 1, cs =>
    let quotes := (cs.takeWhile (· = quote)).length
    if 3 ≤ quotes then
      let taken := min quotes 5
      some (List.replicate (taken - 3) quote, cs.drop taken)
    else
      match newline? cs with
      | some rest => do
        let (ds, rest) ← readLines quote escapes fuel rest
        return ('\n' :: ds, rest)
      | none =>
        match cs with
        | [] => none
        | c :: rest =>
          if escapes && c = '\\' then
            match skipFolded rest with
            | some rest => readLines quote escapes fuel rest
            | none => do
              let (d, rest) ← readEscape rest
              let (ds, rest) ← readLines quote escapes fuel rest
              return (d :: ds, rest)
          else if isPlain c then do
            let (ds, rest) ← readLines quote escapes fuel rest
            return (c :: ds, rest)
          else none

/-- The first line of a string over several lines may be empty and does not count then. -/
def skipFirstBreak (cs : List Char) : List Char := (newline? cs).getD cs

def readString : List Char → Option (List Char × List Char)
  | '"' :: '"' :: '"' :: cs => readLines '"' true (cs.length + 1) (skipFirstBreak cs)
  | '\'' :: '\'' :: '\'' :: cs => readLines '\'' false (cs.length + 1) (skipFirstBreak cs)
  | '"' :: cs => readBasic (cs.length + 1) cs
  | '\'' :: cs => readLiteral cs
  | _ => none

/-! ## Keys -/

def isBare (c : Char) : Bool := c.isAlphanum || c = '_' || c = '-'

def readSimpleKey (cs : List Char) : Option (String × List Char) :=
  match cs with
  | '"' :: rest => (readBasic (rest.length + 1) rest).map fun p => (String.ofList p.1, p.2)
  | '\'' :: rest => (readLiteral rest).map fun p => (String.ofList p.1, p.2)
  | cs =>
    match cs.takeWhile isBare with
    | [] => none
    | name => some (String.ofList name, cs.dropWhile isBare)

/-- How deep a document may go at one place: the parts of a key, or the brackets and braces that
are open at a time. -/
def maxNesting : Nat := 79

/-- A key of at most `n` parts, with dots between them. -/
def readKeyWithin : Nat → List Char → Option (List String × List Char)
  | 0, _ => none
  | n + 1, cs => do
    let (name, rest) ← readSimpleKey (skipSpace cs)
    match skipSpace rest with
    | '.' :: rest => do
      let (names, rest) ← readKeyWithin n rest
      return (name :: names, rest)
    | rest => return ([name], rest)

def readKey (cs : List Char) : Option (List String × List Char) := readKeyWithin maxNesting cs

/-! ## Numbers -/

/-- Digits of a base, with single underscores between them. -/
def digits? (base : Nat) (cs : List Char) : Option (List Nat) :=
  let groups := cs.splitOn '_'
  if groups.any List.isEmpty then none
  else
    (groups.flatten.mapM hexValue?).bind fun ds => if ds.all (· < base) then some ds else none

def natOf (base : Nat) (ds : List Nat) : Nat := ds.foldl (fun n d => n * base + d) 0

/-- Decimal digits that do not start with a zero, except for zero itself. -/
def decimal? (cs : List Char) : Option Nat :=
  match digits? 10 cs with
  | some (0 :: _ :: _) => none
  | some ds => some (natOf 10 ds)
  | none => none

def splitSign : List Char → Bool × List Char
  | '-' :: cs => (true, cs)
  | '+' :: cs => (false, cs)
  | cs => (false, cs)

def integer? (cs : List Char) : Option Int :=
  match cs with
  | '0' :: 'x' :: cs => (digits? 16 cs).map fun ds => natOf 16 ds
  | '0' :: 'o' :: cs => (digits? 8 cs).map fun ds => natOf 8 ds
  | '0' :: 'b' :: cs => (digits? 2 cs).map fun ds => natOf 2 ds
  | cs =>
    let (negative, cs) := splitSign cs
    (decimal? cs).map fun n => if negative then -(n : Int) else n

def fitsWord (z : Int) : Bool := -9223372036854775808 ≤ z && z < 9223372036854775808

def isExponentMark (c : Char) : Bool := c = 'e' || c = 'E'

/-- A number with a fraction or an exponent: its digits, and the power of ten that they count. -/
structure Fraction where
  isNegative : Bool
  digits : List Nat
  exponent : Int

namespace Fraction

/-- Whether a number is so large that no double is nearest to it. Only where the number of digits
does not tell are the powers of ten computed. -/
def isInfinite (f : Fraction) : Bool :=
  let digits := f.digits.dropWhile (· == 0)
  let places := digits.length + f.exponent
  if digits.isEmpty || places < 309 then false
  else if 309 < places then true
  else
    let unit := Nat.pow 10 (-f.exponent).toNat
    infinityBound * unit ≤ natOf 10 digits * Nat.pow 10 f.exponent.toNat

/-- The exponent that a word ends with, zero if there is none. -/
def exponent? : List Char → Option Int
  | [] => some 0
  | _ :: cs =>
    let (negative, cs) := splitSign cs
    (digits? 10 cs).map fun ds => if negative then -(natOf 10 ds : Int) else natOf 10 ds

/-- The digits after the point that a word has, none if it has no point. -/
def decimals? : List Char → Option (List Nat)
  | [] => some []
  | _ :: cs => digits? 10 cs

def ofWord? (word : List Char) : Option Fraction := do
  let (isNegative, cs) := splitSign word
  let mantissa := cs.takeWhile (!isExponentMark ·)
  let whole := mantissa.takeWhile (· ≠ '.')
  let _ ← decimal? whole
  let decimals ← decimals? (mantissa.dropWhile (· ≠ '.'))
  let exponent ← exponent? (cs.dropWhile (!isExponentMark ·))
  return ⟨isNegative, (← digits? 10 whole) ++ decimals, exponent - decimals.length⟩

end Fraction

/-- Whether a word that is no integer is a number. A positive one that is written with digits must
be near some double. -/
def isFraction (word : List Char) : Bool :=
  let unsigned := (splitSign word).2
  unsigned = ['i', 'n', 'f'] || unsigned = ['n', 'a', 'n'] ||
    match Fraction.ofWord? word with
    | some f => f.isNegative || !f.isInfinite
    | none => false

/-! ## Times -/

/-- A number of the given width, between bounds. -/
def readField (width low high : Nat) (cs : List Char) : Option (Nat × List Char) :=
  let ds := cs.take width
  if ds.length = width && ds.all Char.isDigit && low ≤ natOfDigits ds && natOfDigits ds ≤ high then
    some (natOfDigits ds, cs.drop width)
  else none

def readMark (isMark : Char → Bool) : List Char → Option (List Char)
  | c :: rest => if isMark c then some rest else none
  | [] => none

def daysIn (year month : Nat) : Nat :=
  if month = 2 then
    if year % 4 = 0 && (year % 100 ≠ 0 || year % 400 = 0) then 29 else 28
  else if month = 4 || month = 6 || month = 9 || month = 11 then 30
  else 31

def readDate (cs : List Char) : Option (List Char) := do
  let (year, cs) ← readField 4 0 9999 cs
  let (month, cs) ← readField 2 1 12 (← readMark (· = '-') cs)
  let (_, cs) ← readField 2 1 (daysIn year month) (← readMark (· = '-') cs)
  return cs

def readSecondFraction : List Char → Option (List Char)
  | '.' :: cs =>
    match spanDigits cs with
    | ([], _) => none
    | (_, rest) => some rest
  | cs => some cs

def readClock (cs : List Char) : Option (List Char) := do
  let (_, cs) ← readField 2 0 23 cs
  let (_, cs) ← readField 2 0 59 (← readMark (· = ':') cs)
  let (_, cs) ← readField 2 0 60 (← readMark (· = ':') cs)
  readSecondFraction cs

def readOffset (cs : List Char) : Option (List Char) :=
  match cs with
  | [] => some []
  | c :: rest =>
    if c = 'Z' || c = 'z' then some rest
    else if c = '+' || c = '-' then do
      let (_, cs) ← readField 2 0 23 rest
      let (_, cs) ← readField 2 0 59 (← readMark (· = ':') cs)
      return cs
    else some (c :: rest)

def readTime (cs : List Char) : Option (List Char) :=
  match readDate cs with
  | none => readClock cs
  | some rest =>
    match readMark (fun c => c = 'T' || c = 't' || c = ' ') rest with
    | none => some rest
    | some clock =>
      match readClock clock with
      | some rest => readOffset rest
      | none => some rest

end Toml

end Enclave
