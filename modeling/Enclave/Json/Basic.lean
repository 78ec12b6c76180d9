/-!
# Enclave.Json.Basic

JSON documents as they are written: members keep their order, and a name may be repeated.

A string is a sequence of escapes and characters. One whose escapes hold half a surrogate pair
spells no text; it is a valid document all the same, so its text is `none`.
-/

namespace Enclave

inductive Json where
  | null
  | bool (b : Bool)
  | int (z : Int)
  /-- A number with a fraction or an exponent, or minus zero: digits times a power of ten. -/
  | decimal (negative : Bool) (digits : Nat) (exponent : Int)
  | str (text : Option String)
  | arr (items : List Json)
  | obj (members : List (Option String × Json))
deriving Inhabited

namespace Json

def text (s : String) : Json := .str (some s)

def object (members : List (String × Json)) : Json := .obj (members.map fun m => (some m.1, m.2))

def list {α : Type} (f : α → Json) (as : List α) : Json := .arr (as.map f)

def texts (ss : List String) : Json := list text ss

def nat (n : Nat) : Json := .int n

def option {α : Type} (f : α → Json) : Option α → Json
  | none => .null
  | some a => f a

/-- A member that is written only when there is a value. -/
def member? {α : Type} (name : String) (f : α → Json) : Option α → List (String × Json)
  | none => []
  | some a => [(name, f a)]

mutual

def depth : Json → Nat
  | .arr items => depthOfItems items + 1
  | .obj members => depthOfMembers members + 1
  | _ => 0

def depthOfItems : List Json → Nat
  | [] => 0
  | j :: js => max j.depth (depthOfItems js)

def depthOfMembers : List (Option String × Json) → Nat
  | [] => 0
  | (_, j) :: ms => max j.depth (depthOfMembers ms)

end

mutual

/-- Whether every string spells a text and every number is in the range that `inRange` gives. -/
def isSound (inRange : Nat → Int → Bool) : Json → Bool
  | .int z => inRange z.natAbs 0
  | .decimal _ digits exponent => inRange digits exponent
  | .str text => text.isSome
  | .arr items => itemsAreSound inRange items
  | .obj members => membersAreSound inRange members
  | _ => true

def itemsAreSound (inRange : Nat → Int → Bool) : List Json → Bool
  | [] => true
  | j :: js => j.isSound inRange && itemsAreSound inRange js

def membersAreSound (inRange : Nat → Int → Bool) : List (Option String × Json) → Bool
  | [] => true
  | (name, j) :: ms => name.isSome && j.isSound inRange && membersAreSound inRange ms

end

end Json

end Enclave
