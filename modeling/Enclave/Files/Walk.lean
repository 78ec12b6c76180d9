import Enclave.Data.Sorting

/-!
# Enclave.Files.Walk

Walking through a directory. A walk visits a directory and what is below it, down to a depth, and
goes on only from the entries that its caller keeps. Names are what a disk has for names, which need
not be text.
-/

namespace Enclave

structure FileName where
  bytes : List UInt8
deriving DecidableEq, Repr

namespace FileName

instance : Ord FileName := ⟨fun a b => compare a.bytes b.bytes⟩

def ofText (s : String) : FileName := ⟨s.toUTF8.data.toList⟩

def text? (n : FileName) : Option String := String.fromUTF8? ⟨n.bytes.toArray⟩

def startsWithDot (n : FileName) : Bool := n.bytes.head? == some '.'.toUInt8

def firstChar? (bytes : List UInt8) : Option Char := ByteArray.utf8DecodeChar? ⟨bytes.toArray⟩ 0

/-- Whether more bytes would make a character of these. -/
def isCutShort (bytes : List UInt8) : Bool :=
  [[0x80], [0x80, 0x80]].any fun more => (firstChar? (bytes ++ more)).isSome

/-- How many bytes are given up where there is no character: as many as could begin one. -/
def brokenLength (bytes : List UInt8) : Nat :=
  if 3 ≤ bytes.length && isCutShort (bytes.take 3) then 3
  else if 2 ≤ bytes.length && isCutShort (bytes.take 2) then 2
  else 1

/-- At most `n` characters of the bytes, with a mark in place of what is given up. -/
def charsWithin : Nat → List UInt8 → List Char
  | 0, _ | _, [] => []
  | n + 1, bytes =>
    match firstChar? bytes with
    | some c => c :: charsWithin n (bytes.drop c.utf8Size)
    | none => '�' :: charsWithin n (bytes.drop (brokenLength bytes))

def shown (n : FileName) : String :=
  match n.text? with
  | some s => s
  | none => String.ofList (charsWithin n.bytes.length n.bytes)

end FileName

inductive FileType where
  | file
  | directory
  /-- A link, a pipe, a device. -/
  | other
deriving DecidableEq, Repr

/-- An entry that a walk comes to. -/
structure Visit where
  depth : Nat
  type : FileType
  name : FileName
  /-- The names that lead to it from where the walk began. -/
  below : List FileName
deriving DecidableEq, Repr

/-- The entries down to a depth that are kept, each after the directory that it is in; what is in a
directory that is not kept is left out. Where an entry cannot be read, there is a cause. -/
abbrev Walk := Nat → (Visit → Bool) → List (Except String Visit)

inductive FileTree where
  | file
  | other
  | directory (entries : List (FileName × FileTree))

namespace FileTree

def type : FileTree → FileType
  | .file => .file
  | .other => .other
  | .directory _ => .directory

def get? : FileTree → List FileName → Option FileTree
  | e, [] => some e
  | .directory entries, name :: names =>
    match entries.lookup name with
    | some e => get? e names
    | none => none
  | _, _ :: _ => none

/-- The visit to an entry. Where a walk begins has the name that it was called by. -/
def visitTo (start : FileName) (below : List FileName) (e : FileTree) : Visit :=
  ⟨below.length, e.type, below.getLast?.getD start, below⟩

def visits (start : FileName) (keep : Visit → Bool) :
    Nat → List FileName → FileTree → List Visit
  | left, below, e =>
    let v := visitTo start below e
    if keep v then
      match left, e with
      | left + 1, .directory entries =>
        v :: (sortOn (·.1) entries).flatMap fun (name, e) =>
          visits start keep left (below ++ [name]) e
      | _, _ => [v]
    else []

def walk (root : FileTree) (start : FileName) : Walk := fun limit keep =>
  (root.visits start keep limit []).map .ok

end FileTree

end Enclave
