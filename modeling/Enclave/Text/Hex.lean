import Enclave.Json.Text

/-!
# Enclave.Text.Hex

Bytes as pairs of hexadecimal digits.
-/

namespace Enclave

namespace Hex

def ofByte (b : UInt8) : List Char := [Json.hexDigit (b.toNat / 16), Json.hexDigit (b.toNat % 16)]

def ofBytes (bs : List UInt8) : String := String.ofList (bs.flatMap ofByte)

def readBytes : List Char → Option (List UInt8)
  | [] => some []
  | a :: b :: rest => do
    let high ← Json.hexValue? a
    let low ← Json.hexValue? b
    return UInt8.ofNat (high * 16 + low) :: (← readBytes rest)
  | [_] => none

def toBytes? (s : String) : Option (List UInt8) := readBytes s.toList

end Hex

end Enclave
