/-!
# Enclave.Json.Range

Which numbers a double can hold. A value that is kept for later is kept with its numbers as doubles,
and a number that would be infinite is refused. The number is taken as its first digits, as many as
fit 64 bits, times a power of ten; both are rounded to 53 bits before they are multiplied.
-/

namespace Enclave

namespace Json

/-- The leading decimal digits that stay below `bound`, and how many were dropped. -/
def leadingDigits (bound : Nat) : Nat → Nat → Nat × Nat
  | 0, n => (n, 0)
  | fuel + 1, n =>
    if n < bound then (n, 0)
    else
      let (m, dropped) := leadingDigits bound fuel (n / 10)
      (m, dropped + 1)

/-- The nearest number of at most 53 binary digits, the even one of two. -/
def roundToDouble (n : Nat) : Nat :=
  if n < Nat.pow 2 53 then n
  else
    let shift := n.log2 - 52
    let quotient := n / Nat.pow 2 shift
    let remainder := n % Nat.pow 2 shift
    let half := Nat.pow 2 (shift - 1)
    let up := remainder > half || (remainder == half && quotient % 2 == 1)
    (if up then quotient + 1 else quotient) * Nat.pow 2 shift

/-- The least number that is rounded to infinity. -/
def infinityBound : Nat := Nat.pow 2 1024 - Nat.pow 2 970

/-- Whether digits times a power of ten are a finite double. -/
def fitsDouble (digits : Nat) (exponent : Int) : Bool :=
  let (m, dropped) := leadingDigits (Nat.pow 2 64) (digits.log2 + 1) digits
  let e := exponent + dropped
  if m = 0 ∨ e < 0 then true
  else if 308 < e then false
  else roundToDouble m * roundToDouble (Nat.pow 10 e.toNat) < infinityBound

end Json

end Enclave
