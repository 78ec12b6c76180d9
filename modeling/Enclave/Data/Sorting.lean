/-!
# Enclave.Data.Sorting

A stable sort: entries that compare equal keep the order they came in.
-/

namespace Enclave

/-- Puts `a` before the first entry that is not smaller than it. -/
def insertBy {α : Type} (lt : α → α → Bool) (a : α) : List α → List α
  | [] => [a]
  | b :: bs => if lt b a then b :: insertBy lt a bs else a :: b :: bs

def sortBy {α : Type} (lt : α → α → Bool) (l : List α) : List α := l.foldr (insertBy lt) []

def sortOn {α κ : Type} [Ord κ] (key : α → κ) (l : List α) : List α :=
  sortBy (fun a b => (compare (key a) (key b)).isLT) l

end Enclave
