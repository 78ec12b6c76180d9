/-!
# Enclave.Data.SortedSet

Finite sets kept as strictly ascending lists. Two sets with the same members are the same list, so
the order in which members were added leaves no trace.
-/

namespace Enclave

open Std

/-- Puts `a` before the first larger entry; an entry that compares equal stays as it is. -/
def insertAscending {α : Type} [Ord α] (a : α) : List α → List α
  | [] => [a]
  | b :: bs =>
    match compare a b with
    | .lt => a :: b :: bs
    | .eq => b :: bs
    | .gt => b :: insertAscending a bs

theorem mem_of_mem_insertAscending {α : Type} [Ord α] {a x : α} :
    ∀ {l : List α}, x ∈ insertAscending a l → x = a ∨ x ∈ l := by
  intro l
  induction l with
  | nil => intro h; simp [insertAscending] at h; exact .inl h
  | cons b bs ih =>
    intro h
    simp only [insertAscending] at h
    split at h
    · rcases List.mem_cons.1 h with h | h
      · exact .inl h
      · exact .inr h
    · exact .inr h
    · rcases List.mem_cons.1 h with h | h
      · exact .inr (h ▸ List.mem_cons_self)
      · exact (ih h).imp id (List.mem_cons_of_mem b)

theorem pairwise_insertAscending {α : Type} [Ord α] [TransOrd α] {a : α} :
    ∀ {l : List α}, l.Pairwise (fun x y => compare x y = .lt) →
      (insertAscending a l).Pairwise (fun x y => compare x y = .lt) := by
  intro l
  induction l with
  | nil => intro _; simp [insertAscending]
  | cons b bs ih =>
    intro h
    obtain ⟨hb, hbs⟩ := List.pairwise_cons.1 h
    simp only [insertAscending]
    split
    · rename_i hab
      refine List.pairwise_cons.2 ⟨fun x hx => ?_, h⟩
      rcases List.mem_cons.1 hx with rfl | hx
      · exact hab
      · exact TransCmp.lt_trans hab (hb x hx)
    · exact h
    · rename_i hab
      refine List.pairwise_cons.2 ⟨fun x hx => ?_, ih hbs⟩
      rcases mem_of_mem_insertAscending hx with rfl | hx
      · exact OrientedCmp.lt_of_gt hab
      · exact hb x hx

structure SortedSet (α : Type) [Ord α] where
  toList : List α
  ascending : toList.Pairwise (fun x y => compare x y = .lt)

namespace SortedSet

variable {α : Type} [Ord α]

def empty : SortedSet α := ⟨[], .nil⟩

instance : EmptyCollection (SortedSet α) := ⟨empty⟩

instance : Inhabited (SortedSet α) := ⟨empty⟩

instance [DecidableEq α] : DecidableEq (SortedSet α) := fun s t =>
  decidable_of_iff (s.toList = t.toList) ⟨fun h => by cases s; cases t; simp_all, fun h => h ▸ rfl⟩

def isEmpty (s : SortedSet α) : Bool := s.toList.isEmpty

def size (s : SortedSet α) : Nat := s.toList.length

def contains [BEq α] (s : SortedSet α) (a : α) : Bool := s.toList.contains a

def min? (s : SortedSet α) : Option α := s.toList.head?

def single? (s : SortedSet α) : Option α :=
  match s.toList with
  | [a] => some a
  | _ => none

def insert [TransOrd α] (s : SortedSet α) (a : α) : SortedSet α :=
  ⟨insertAscending a s.toList, pairwise_insertAscending s.ascending⟩

def insertAll [TransOrd α] (s : SortedSet α) (as : List α) : SortedSet α := as.foldl insert s

def ofList [TransOrd α] (as : List α) : SortedSet α := insertAll empty as

def union [TransOrd α] (s t : SortedSet α) : SortedSet α := s.insertAll t.toList

end SortedSet

end Enclave
