import Enclave.Json.Basic
import Enclave.Json.Text

/-!
# Enclave.Json.Printer

JSON documents as text: without any blanks, or with one member or item to a line, indented by two
blanks for each level of nesting.
-/

namespace Enclave

namespace Json

def printText : Option String → List Char
  | some s => '"' :: escape s.toList ++ ['"']
  | none => "\"\\ud800\"".toList

def printInt (z : Int) : List Char :=
  if z < 0 then '-' :: Nat.toDigits 10 z.natAbs else Nat.toDigits 10 z.natAbs

def printDecimal (negative : Bool) (digits : Nat) (exponent : Int) : List Char :=
  (if negative then ['-'] else []) ++ Nat.toDigits 10 digits ++ 'e' :: printInt exponent

def printBool (b : Bool) : List Char := if b then "true".toList else "false".toList

mutual

def printCompact : Json → List Char
  | .null => "null".toList
  | .bool b => printBool b
  | .int z => printInt z
  | .decimal negative digits exponent => printDecimal negative digits exponent
  | .str text => printText text
  | .arr [] => ['[', ']']
  | .arr (j :: js) => '[' :: (j.printCompact ++ printItems js)
  | .obj [] => ['{', '}']
  | .obj ((name, j) :: ms) => '{' :: (printText name ++ ':' :: (j.printCompact ++ printMembers ms))

def printItems : List Json → List Char
  | [] => [']']
  | j :: js => ',' :: (j.printCompact ++ printItems js)

def printMembers : List (Option String × Json) → List Char
  | [] => ['}']
  | (name, j) :: ms => ',' :: (printText name ++ ':' :: (j.printCompact ++ printMembers ms))

end

def newLine (level : Nat) : List Char := '\n' :: List.replicate (2 * level) ' '

mutual

def printPretty (level : Nat) : Json → List Char
  | .null => "null".toList
  | .bool b => printBool b
  | .int z => printInt z
  | .decimal negative digits exponent => printDecimal negative digits exponent
  | .str text => printText text
  | .arr [] => ['[', ']']
  | .arr (j :: js) =>
    '[' :: (newLine (level + 1) ++ (j.printPretty (level + 1) ++ prettyItems level js))
  | .obj [] => ['{', '}']
  | .obj ((name, j) :: ms) =>
    '{' :: (newLine (level + 1) ++ (printText name ++ ':' :: ' ' ::
      (j.printPretty (level + 1) ++ prettyMembers level ms)))

def prettyItems (level : Nat) : List Json → List Char
  | [] => newLine level ++ [']']
  | j :: js =>
    ',' :: (newLine (level + 1) ++ (j.printPretty (level + 1) ++ prettyItems level js))

def prettyMembers (level : Nat) : List (Option String × Json) → List Char
  | [] => newLine level ++ ['}']
  | (name, j) :: ms =>
    ',' :: (newLine (level + 1) ++ (printText name ++ ':' :: ' ' ::
      (j.printPretty (level + 1) ++ prettyMembers level ms)))

end

def compact (j : Json) : String := String.ofList j.printCompact

def pretty (j : Json) : String := String.ofList (j.printPretty 0)

end Json

end Enclave
