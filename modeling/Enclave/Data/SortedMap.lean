import Enclave.Data.SortedSet

/-!
# Enclave.Data.SortedMap

Finite maps kept as lists of entries whose keys strictly ascend. Reading the entries gives the keys
in order, and two maps with the same entries are equal.
-/

namespace Enclave

open Std

def putAscending {κ ν : Type} [Ord κ] (k : κ) (v : ν) : List (κ × ν) → List (κ × ν)
  | [] => [(k, v)]
  | (k', v') :: es =>
    match compare k k' with
    | .lt => (k, v) :: (k', v') :: es
    | .eq => (k, v) :: es
    | .gt => (k', v') :: putAscending k v es

theorem key_of_mem_putAscending {κ ν : Type} [Ord κ] {k : κ} {v : ν} {e : κ × ν} :
    ∀ {l : List (κ × ν)}, e ∈ putAscending k v l → e.1 = k ∨ e ∈ l := by
  intro l
  induction l with
  | nil => intro h; simp [putAscending] at h; exact .inl (by rw [h])
  | cons b bs ih =>
    obtain ⟨k', v'⟩ := b
    intro h
    simp only [putAscending] at h
    split at h
    · rcases List.mem_cons.1 h with h | h
      · exact .inl (by rw [h])
      · exact .inr h
    · rcases List.mem_cons.1 h with h | h
      · exact .inl (by rw [h])
      · exact .inr (List.mem_cons_of_mem _ h)
    · rcases List.mem_cons.1 h with h | h
      · exact .inr (h ▸ List.mem_cons_self)
      · exact (ih h).imp id (List.mem_cons_of_mem _)

theorem pairwise_putAscending {κ ν : Type} [Ord κ] [TransOrd κ] {k : κ} {v : ν} :
    ∀ {l : List (κ × ν)}, l.Pairwise (fun x y => compare x.1 y.1 = .lt) →
      (putAscending k v l).Pairwise (fun x y => compare x.1 y.1 = .lt) := by
  intro l
  induction l with
  | nil => intro _; simp [putAscending]
  | cons b bs ih =>
    obtain ⟨k', v'⟩ := b
    intro h
    obtain ⟨hb, hbs⟩ := List.pairwise_cons.1 h
    simp only [putAscending]
    split
    · rename_i hk
      refine List.pairwise_cons.2 ⟨fun x hx => ?_, h⟩
      rcases List.mem_cons.1 hx with rfl | hx
      · exact hk
      · exact TransCmp.lt_trans hk (hb x hx)
    · rename_i hk
      exact List.pairwise_cons.2 ⟨fun x hx => TransCmp.lt_of_eq_of_lt hk (hb x hx), hbs⟩
    · rename_i hk
      refine List.pairwise_cons.2 ⟨fun x hx => ?_, ih hbs⟩
      rcases key_of_mem_putAscending hx with hx | hx
      · simpa [hx] using OrientedCmp.lt_of_gt hk
      · exact hb x hx

structure SortedMap (κ ν : Type) [Ord κ] where
  toList : List (κ × ν)
  ascending : toList.Pairwise (fun x y => compare x.1 y.1 = .lt)

namespace SortedMap

variable {κ ν : Type} [Ord κ]

def empty : SortedMap κ ν := ⟨[], .nil⟩

instance : EmptyCollection (SortedMap κ ν) := ⟨empty⟩

instance : Inhabited (SortedMap κ ν) := ⟨empty⟩

instance [DecidableEq κ] [DecidableEq ν] : DecidableEq (SortedMap κ ν) := fun s t =>
  decidable_of_iff (s.toList = t.toList) ⟨fun h => by cases s; cases t; simp_all, fun h => h ▸ rfl⟩

def isEmpty (m : SortedMap κ ν) : Bool := m.toList.isEmpty

def size (m : SortedMap κ ν) : Nat := m.toList.length

def keys (m : SortedMap κ ν) : List κ := m.toList.map (·.1)

def values (m : SortedMap κ ν) : List ν := m.toList.map (·.2)

def get? [BEq κ] (m : SortedMap κ ν) (k : κ) : Option ν := m.toList.lookup k

def contains [BEq κ] (m : SortedMap κ ν) (k : κ) : Bool := (m.get? k).isSome

def insert [TransOrd κ] (m : SortedMap κ ν) (k : κ) (v : ν) : SortedMap κ ν :=
  ⟨putAscending k v m.toList, pairwise_putAscending m.ascending⟩

def mapValues {μ : Type} (f : ν → μ) (m : SortedMap κ ν) : SortedMap κ μ :=
  ⟨m.toList.map fun e => (e.1, f e.2), m.ascending.map _ fun _ _ h => h⟩

/-- The entries written one after another: of two with one key the later stays. -/
def ofList [TransOrd κ] (es : List (κ × ν)) : SortedMap κ ν :=
  es.foldl (fun m e => m.insert e.1 e.2) empty

end SortedMap

end Enclave
