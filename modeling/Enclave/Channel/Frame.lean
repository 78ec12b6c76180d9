/-!
# Enclave.Channel.Frame

Messages on a byte stream. A frame is the length of its payload in four bytes, least significant
first, and then the payload.
-/

namespace Enclave

namespace Frame

def maxPayload : Nat := 16 * 1024 * 1024

inductive Error where
  | payloadTooLong (size : Nat)
  | lengthTooLarge (size : Nat)
  | cutShort
deriving DecidableEq, Repr

def Error.message : Error → String
  | .payloadTooLong size => s!"frame of {size} bytes exceeds limit"
  | .lengthTooLarge size => s!"frame of {size} bytes exceeds limit"
  | .cutShort => "failed to fill whole buffer"

def lengthBytes (n : Nat) : ByteArray :=
  ⟨#[.ofNat n, .ofNat (n / 256), .ofNat (n / 65536), .ofNat (n / 16777216)]⟩

def lengthOf? (bytes : ByteArray) : Option Nat := do
  let a ← bytes[0]?
  let b ← bytes[1]?
  let c ← bytes[2]?
  let d ← bytes[3]?
  return a.toNat + 256 * b.toNat + 65536 * c.toNat + 16777216 * d.toNat

def write (payload : ByteArray) : Except Error ByteArray :=
  if maxPayload < payload.size then .error (.payloadTooLong payload.size)
  else .ok (lengthBytes payload.size ++ payload)

/-- The payload of the first frame, and the bytes after that frame. -/
def read (bytes : ByteArray) : Except Error (ByteArray × ByteArray) :=
  match lengthOf? bytes with
  | none => .error .cutShort
  | some n =>
    if maxPayload < n then .error (.lengthTooLarge n)
    else if bytes.size < 4 + n then .error .cutShort
    else .ok (bytes.extract 4 (4 + n), bytes.extract (4 + n) bytes.size)

/-- The payloads of frames one after another, at most `count`, and why reading stopped. -/
def readUpTo : Nat → ByteArray → List ByteArray × Option Error
  | 0, _ => ([], none)
  | count + 1, bytes =>
    match read bytes with
    | .error e => ([], some e)
    | .ok (payload, rest) =>
      let (payloads, e) := readUpTo count rest
      (payload :: payloads, e)

end Frame

end Enclave
