/-!
# Enclave.Overflow

Line numbers and distances are 32-bit words, step counts are 64-bit words. A sum that does not fit
its word is an error of its own, which ends the work that needed the sum.
-/

namespace Enclave

inductive Overflow where
  | add
deriving DecidableEq, Repr

def Overflow.message : Overflow → String
  | .add => "attempt to add with overflow"

def word32 : Nat := 4294967296

def word64 : Nat := 18446744073709551616

def addBelow (bound a b : Nat) : Except Overflow Nat :=
  if a + b < bound then .ok (a + b) else .error .add

end Enclave
