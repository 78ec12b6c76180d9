/-!
# Enclave.Toml.Basic

Documents of tables, and how pairs and headers add to them. A table remembers how it came to be,
because that decides what may still be added to it.
-/

namespace Enclave

namespace Toml

/-- What made a table: its own header, a header that passes through it, a dotted key, or braces. -/
inductive Maker where
  | header
  | passing
  | dotted
  | braces
deriving DecidableEq, Repr

end Toml

/-- A value. Fractions and times are recognised but not kept, because no setting holds one. -/
inductive Toml where
  | text (s : String)
  | int (z : Int)
  | bool (b : Bool)
  | fraction
  | time
  | arr (items : List Toml)
  | table (maker : Toml.Maker) (members : List (String × Toml))
  /-- Tables under one repeated header. -/
  | tables (items : List (List (String × Toml)))

namespace Toml

abbrev Members := List (String × Toml)

def replace (key : String) (value : Toml) : Members → Members
  | [] => []
  | (other, v) :: rest =>
    if other = key then (key, value) :: rest else (other, v) :: replace key value rest

/-- Whether a dotted key may go on through a table; the last one on its way must be dotted too. -/
def Maker.admits (maker : Maker) (isLast : Bool) : Bool :=
  match maker with
  | .dotted => true
  | .passing => !isLast
  | .header | .braces => false

/-- Adds a pair; no key may be given twice. A dotted key may go on through the latest one of
repeated tables, but not end in it. -/
def addPair : List String → Toml → Members → Option Members
  | [], _, _ => none
  | [key], value, ms => if (ms.lookup key).isSome then none else some (ms ++ [(key, value)])
  | key :: path, value, ms =>
    match ms.lookup key with
    | none => do return ms ++ [(key, .table .dotted (← addPair path value []))]
    | some (.table maker inner) =>
      if maker.admits (path.length == 1) then do
        return replace key (.table maker (← addPair path value inner)) ms
      else none
    | some (.tables items) =>
      match items.getLast? with
      | none => none
      | some last =>
        if path.length == 1 then none
        else do return replace key (.tables (items.dropLast ++ [← addPair path value last])) ms
    | some _ => none

/-- Changes the table to which a path of headers leads, the latest one of repeated tables. -/
def modifyAt (f : Members → Option Members) : List String → Members → Option Members
  | [], ms => f ms
  | key :: path, ms =>
    match ms.lookup key with
    | none => do return ms ++ [(key, .table .passing (← modifyAt f path []))]
    | some (.table maker inner) =>
      if maker = .braces then none
      else do return replace key (.table maker (← modifyAt f path inner)) ms
    | some (.tables items) =>
      match items.getLast? with
      | none => none
      | some last => do
        return replace key (.tables (items.dropLast ++ [← modifyAt f path last])) ms
    | some _ => none

def openTable (key : String) (ms : Members) : Option Members :=
  match ms.lookup key with
  | none => some (ms ++ [(key, .table .header [])])
  | some (.table .passing inner) => some (replace key (.table .header inner) ms)
  | some _ => none

/-- Opens one more of the tables under a repeated header. -/
def openNext (key : String) (ms : Members) : Option Members :=
  match ms.lookup key with
  | none => some (ms ++ [(key, .tables [[]])])
  | some (.tables items) => some (replace key (.tables (items ++ [[]])) ms)
  | some _ => none

inductive Statement where
  | pair (key : List String) (value : Toml)
  | header (key : List String)
  | nextHeader (key : List String)

/-- A document under construction: its members, and the table to which pairs now go. -/
structure Draft where
  members : Members := []
  current : List String := []

def Draft.add (d : Draft) : Statement → Option Draft
  | .pair key value => do
    return { d with members := ← modifyAt (addPair key value) d.current d.members }
  | .header key =>
    match key.getLast? with
    | none => none
    | some last => do return ⟨← modifyAt (openTable last) key.dropLast d.members, key⟩
  | .nextHeader key =>
    match key.getLast? with
    | none => none
    | some last => do return ⟨← modifyAt (openNext last) key.dropLast d.members, key⟩

def document (statements : List Statement) : Option Members :=
  (statements.foldlM Draft.add {}).map (·.members)

end Toml

end Enclave
