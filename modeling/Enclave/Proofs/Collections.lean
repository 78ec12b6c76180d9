import Enclave.Data.SortedMap
import Enclave.Data.Sorting
import Mathlib.Data.List.Perm.Basic

/-!
# Enclave.Proofs.Collections

What the finite sets and maps of `Enclave.Data` hold after each of their operations. A set is read
through the members of its list, a map through `get?`; nothing after this module looks at how
either is kept.
-/

namespace Enclave

open Std

section Insertion

variable {α : Type} [Ord α] [LawfulEqOrd α]

theorem mem_insertAscending {a x : α} {l : List α} :
    x ∈ insertAscending a l ↔ x = a ∨ x ∈ l := by
  induction l with
  | nil => simp [insertAscending]
  | cons b bs ih =>
    simp only [insertAscending]
    split
    · simp
    · rename_i hab
      have hab : a = b := LawfulEqCmp.eq_of_compare hab
      simp [hab]
    · simp only [List.mem_cons, ih]
      tauto

end Insertion

theorem eq_of_pairwise_of_mem {α : Type} {r : α → α → Prop} (hr : ∀ x y, r x y → ¬ r y x)
    {l l' : List α} (h : l.Pairwise r) (h' : l'.Pairwise r) (hmem : ∀ x, x ∈ l ↔ x ∈ l') :
    l = l' := by
  have hnodup : ∀ {l : List α}, l.Pairwise r → l.Nodup := by
    intro l h
    refine h.imp fun {x y} hxy => ?_
    rintro rfl
    exact hr x x hxy hxy
  have hperm := (List.perm_ext_iff_of_nodup (hnodup h) (hnodup h')).2 hmem
  exact hperm.eq_of_pairwise (fun x y _ _ hxy hyx => absurd hyx (hr x y hxy)) h h'

theorem not_lt_of_lt {α : Type} [Ord α] [TransOrd α] (x y : α) (h : compare x y = .lt) :
    ¬ compare y x = .lt := by
  rw [OrientedCmp.gt_of_lt h]
  intro h
  cases h

namespace SortedSet

variable {α : Type} [Ord α]

theorem isEmpty_iff {s : SortedSet α} : s.isEmpty = true ↔ s.toList = [] := by
  simp [isEmpty]

theorem contains_iff [BEq α] [LawfulBEq α] {s : SortedSet α} {a : α} :
    s.contains a = true ↔ a ∈ s.toList := by
  simp [contains]

theorem nodup_toList [ReflOrd α] (s : SortedSet α) : s.toList.Nodup := by
  refine s.ascending.imp fun {x y} h => ?_
  rintro rfl
  rw [ReflOrd.compare_self] at h
  cases h

theorem single?_eq_some {s : SortedSet α} {a : α} (h : s.single? = some a) : a ∈ s.toList := by
  simp only [single?] at h
  split at h
  · rename_i b hb
    cases h
    simp [hb]
  · cases h

theorem exists_ne_of_single?_eq_none [ReflOrd α] {s : SortedSet α} (hne : s.toList ≠ [])
    (h : s.single? = none) : ∃ a ∈ s.toList, ∃ b ∈ s.toList, a ≠ b := by
  have hnodup := s.nodup_toList
  simp only [single?] at h
  match hs : s.toList with
  | [] => exact absurd hs hne
  | [a] => simp [hs] at h
  | a :: b :: as =>
    rw [hs, List.nodup_cons] at hnodup
    refine ⟨a, List.mem_cons_self, b, List.mem_cons_of_mem a List.mem_cons_self, ?_⟩
    rintro rfl
    exact hnodup.1 List.mem_cons_self

theorem toList_eq_of_mem [TransOrd α] {s : SortedSet α} {l : List α}
    (hl : l.Pairwise fun x y => compare x y = .lt) (h : ∀ x, x ∈ s.toList ↔ x ∈ l) :
    s.toList = l :=
  eq_of_pairwise_of_mem not_lt_of_lt s.ascending hl h

theorem ext_mem [TransOrd α] {s t : SortedSet α} (h : ∀ x, x ∈ s.toList ↔ x ∈ t.toList) :
    s = t := by
  have hlist : s.toList = t.toList := toList_eq_of_mem t.ascending h
  cases s
  cases t
  cases hlist
  rfl

variable [TransOrd α] [LawfulEqOrd α]

@[simp] theorem mem_insert {s : SortedSet α} {a x : α} :
    x ∈ (s.insert a).toList ↔ x = a ∨ x ∈ s.toList :=
  mem_insertAscending

@[simp] theorem mem_insertAll {s : SortedSet α} {as : List α} {x : α} :
    x ∈ (s.insertAll as).toList ↔ x ∈ as ∨ x ∈ s.toList := by
  induction as generalizing s with
  | nil => simp [insertAll]
  | cons a as ih =>
    have : s.insertAll (a :: as) = (s.insert a).insertAll as := rfl
    rw [this, ih, mem_insert, List.mem_cons]
    tauto

@[simp] theorem mem_ofList {as : List α} {x : α} :
    x ∈ (ofList as).toList ↔ x ∈ as := by
  rw [ofList, mem_insertAll]
  simp [empty]

@[simp] theorem mem_union {s t : SortedSet α} {x : α} :
    x ∈ (s.union t).toList ↔ x ∈ s.toList ∨ x ∈ t.toList := by
  rw [union, mem_insertAll, or_comm]

end SortedSet

theorem lookup_eq_some_iff_mem {κ ν : Type} [BEq κ] [LawfulBEq κ] {l : List (κ × ν)}
    (h : (l.map (·.1)).Nodup) {k : κ} {v : ν} : l.lookup k = some v ↔ (k, v) ∈ l := by
  rw [List.lookup_eq_some_iff]
  constructor
  · rintro ⟨l₁, l₂, rfl, -⟩
    exact List.mem_append_right l₁ List.mem_cons_self
  · intro hmem
    obtain ⟨l₁, l₂, rfl⟩ := List.append_of_mem hmem
    refine ⟨l₁, l₂, rfl, fun p hp => ?_⟩
    rw [List.map_append, List.nodup_append] at h
    rw [bne_iff_ne]
    rintro rfl
    exact h.2.2 _ (List.mem_map_of_mem hp) _ List.mem_cons_self rfl

section Put

variable {κ ν : Type} [Ord κ] [LawfulEqOrd κ] [BEq κ] [LawfulBEq κ]

theorem lookup_putAscending {k k' : κ} {v : ν} {l : List (κ × ν)} :
    (putAscending k v l).lookup k' = if k' == k then some v else l.lookup k' := by
  induction l with
  | nil =>
    rw [putAscending, List.lookup_cons]
    cases k' == k <;> rfl
  | cons e es ih =>
    obtain ⟨k₁, v₁⟩ := e
    simp only [putAscending]
    split
    · rw [List.lookup_cons]
      cases k' == k <;> rfl
    · rename_i hk
      have hk : k = k₁ := LawfulEqCmp.eq_of_compare hk
      subst hk
      rw [List.lookup_cons, List.lookup_cons]
      cases k' == k <;> rfl
    · rename_i hk
      rw [List.lookup_cons, ih, List.lookup_cons]
      cases h₁ : k' == k₁ with
      | false => rfl
      | true =>
        have hne : (k' == k) = false := by
          rw [eq_of_beq h₁, beq_eq_false_iff_ne]
          rintro rfl
          rw [ReflOrd.compare_self] at hk
          cases hk
        rw [hne]
        rfl

end Put

namespace SortedMap

variable {κ ν : Type} [Ord κ]

theorem ascending_keys (m : SortedMap κ ν) : m.keys.Pairwise (compare · · = .lt) :=
  List.pairwise_map.2 m.ascending

theorem nodup_keys [ReflOrd κ] (m : SortedMap κ ν) : m.keys.Nodup := by
  refine m.ascending_keys.imp fun {x y} h => ?_
  rintro rfl
  rw [ReflOrd.compare_self] at h
  cases h

theorem nodup_toList [ReflOrd κ] (m : SortedMap κ ν) : m.toList.Nodup :=
  List.Pairwise.of_map (·.1) (fun _ _ hne heq => hne (congrArg (·.1) heq)) (nodup_keys m)

variable [BEq κ]

theorem contains_iff {m : SortedMap κ ν} {k : κ} :
    m.contains k = true ↔ ∃ v, m.get? k = some v := by
  rw [contains, Option.isSome_iff_exists]

theorem get?_mapValues {μ : Type} (f : ν → μ) (m : SortedMap κ ν) (k : κ) :
    (m.mapValues f).get? k = (m.get? k).map f := by
  simp only [get?, mapValues]
  induction m.toList with
  | nil => rfl
  | cons e es ih =>
    rw [List.map_cons, List.lookup_cons, List.lookup_cons, ih]
    cases k == e.1 <;> rfl

variable [LawfulBEq κ]

theorem mem_of_get? {m : SortedMap κ ν} {k : κ} {v : ν} (h : m.get? k = some v) :
    (k, v) ∈ m.toList := by
  obtain ⟨l₁, l₂, hl, _⟩ := List.lookup_eq_some_iff.1 h
  simp [hl]

theorem get?_eq_some_iff [ReflOrd κ] {m : SortedMap κ ν} {k : κ} {v : ν} :
    m.get? k = some v ↔ (k, v) ∈ m.toList :=
  lookup_eq_some_iff_mem m.nodup_keys

theorem mem_keys [ReflOrd κ] {m : SortedMap κ ν} {k : κ} : k ∈ m.keys ↔ m.contains k = true := by
  simp [keys, contains_iff, get?_eq_some_iff]

theorem mem_values [ReflOrd κ] {m : SortedMap κ ν} {v : ν} :
    v ∈ m.values ↔ ∃ k, m.get? k = some v := by
  simp [values, get?_eq_some_iff]

theorem isEmpty_iff [ReflOrd κ] {m : SortedMap κ ν} :
    m.isEmpty = true ↔ ∀ k, m.get? k = none := by
  rw [isEmpty, List.isEmpty_iff]
  constructor
  · intro h k
    simp [get?, h]
  · intro h
    refine List.eq_nil_iff_forall_not_mem.2 fun e he => ?_
    have := get?_eq_some_iff.2 (show (e.1, e.2) ∈ m.toList from he)
    rw [h] at this
    cases this

theorem ext_get? [TransOrd κ] {m n : SortedMap κ ν} (h : ∀ k, m.get? k = n.get? k) : m = n := by
  have hlist : m.toList = n.toList := by
    refine eq_of_pairwise_of_mem (fun x y => not_lt_of_lt x.1 y.1) m.ascending n.ascending ?_
    intro e
    rw [← get?_eq_some_iff (k := e.1) (v := e.2), ← get?_eq_some_iff (k := e.1) (v := e.2), h]
  cases m
  cases n
  cases hlist
  rfl

variable [TransOrd κ] [LawfulEqOrd κ]

theorem get?_insert {m : SortedMap κ ν} {k k' : κ} {v : ν} :
    (m.insert k v).get? k' = if k' == k then some v else m.get? k' :=
  lookup_putAscending

@[simp] theorem get?_insert_self {m : SortedMap κ ν} {k : κ} {v : ν} :
    (m.insert k v).get? k = some v := by
  rw [get?_insert, beq_self_eq_true, if_pos rfl]

theorem get?_insert_of_ne {m : SortedMap κ ν} {k k' : κ} {v : ν} (h : k' ≠ k) :
    (m.insert k v).get? k' = m.get? k' := by
  rw [get?_insert, if_neg (by simpa using h)]

theorem get?_foldl_insert {es : List (κ × ν)} {m : SortedMap κ ν} {k : κ}
    (hnd : (es.map (·.1)).Nodup) :
    (es.foldl (fun m e => m.insert e.1 e.2) m).get? k = (es.lookup k).or (m.get? k) := by
  induction es generalizing m with
  | nil => simp
  | cons e es ih =>
    obtain ⟨he, hes⟩ := List.nodup_cons.1 hnd
    rw [List.foldl_cons, ih hes, List.lookup_cons, get?_insert]
    cases hk : k == e.1 with
    | false => simp
    | true =>
      have hnone : es.lookup k = none := by
        rw [List.lookup_eq_none_iff]
        intro p hp
        rw [bne_iff_ne]
        rintro hpk
        exact he (List.mem_map.2 ⟨p, hp, by rw [← hpk, eq_of_beq hk]⟩)
      simp [hnone]

end SortedMap

theorem insertBy_perm {α : Type} (lt : α → α → Bool) (a : α) (l : List α) :
    (insertBy lt a l).Perm (a :: l) := by
  induction l with
  | nil => exact .refl _
  | cons b bs ih =>
    simp only [insertBy]
    split
    · exact (ih.cons b).trans (.swap a b bs)
    · exact .refl _

theorem sortBy_perm {α : Type} (lt : α → α → Bool) (l : List α) : (sortBy lt l).Perm l := by
  induction l with
  | nil => exact .refl _
  | cons a as ih => exact (insertBy_perm lt a _).trans (ih.cons a)

theorem sortOn_perm {α κ : Type} [Ord κ] (key : α → κ) (l : List α) : (sortOn key l).Perm l :=
  sortBy_perm _ l

/--
A sorted list ascends, and of two entries of which neither is smaller the one that was `before` the
other still is.
-/
theorem pairwise_sortBy {α : Type} {lt : α → α → Bool} (before : α → α → Prop)
    (hasymm : ∀ a b, lt a b = true → lt b a = false)
    (htrans : ∀ a b c, lt a b = false → lt b c = false → lt a c = false) {l : List α}
    (h : l.Pairwise before) :
    (sortBy lt l).Pairwise fun a b => lt a b = true ∨ lt b a = false ∧ before a b := by
  have hinsert : ∀ (a : α) {l : List α}, (∀ x ∈ l, before a x) →
      l.Pairwise (fun a b => lt a b = true ∨ lt b a = false ∧ before a b) →
      (insertBy lt a l).Pairwise fun a b => lt a b = true ∨ lt b a = false ∧ before a b := by
    intro a l
    induction l with
    | nil => exact fun _ _ => List.pairwise_singleton _ a
    | cons b bs ih =>
      intro ha h
      obtain ⟨hb, hbs⟩ := List.pairwise_cons.1 h
      simp only [insertBy]
      split
      · rename_i hlt
        refine List.pairwise_cons.2 ⟨fun x hx => ?_,
          ih (fun x hx => ha x (List.mem_cons_of_mem b hx)) hbs⟩
        rcases List.mem_cons.1 ((insertBy_perm lt a bs).mem_iff.1 hx) with rfl | hx
        · exact .inl hlt
        · exact hb x hx
      · rename_i hlt
        rw [Bool.not_eq_true] at hlt
        refine List.pairwise_cons.2 ⟨fun x hx => .inr ⟨?_, ha x hx⟩, h⟩
        rcases List.mem_cons.1 hx with rfl | hx
        · exact hlt
        · have hxb : lt x b = false := (hb x hx).elim (hasymm b x) And.left
          exact htrans x b a hxb hlt
  induction l with
  | nil => exact .nil
  | cons a as ih =>
    obtain ⟨ha, has⟩ := List.pairwise_cons.1 h
    exact hinsert a (fun x hx => ha x ((sortBy_perm lt as).mem_iff.1 hx)) (ih has)

theorem pairwise_sortOn {α κ : Type} [Ord κ] [TransOrd κ] (key : α → κ) (l : List α) :
    (sortOn key l).Pairwise fun a b => (compare (key a) (key b)).isLE = true := by
  have hle : ∀ a b : α, (compare (key a) (key b)).isLT = false ↔
      (compare (key b) (key a)).isLE = true := by
    intro a b
    rw [OrientedOrd.eq_swap (a := key b)]
    cases compare (key a) (key b) <;> simp
  have hasymm : ∀ a b : α, (compare (key a) (key b)).isLT = true →
      (compare (key b) (key a)).isLT = false := fun a b h =>
    (hle b a).2 (Ordering.isLE_of_eq_lt (Ordering.isLT_iff_eq_lt.1 h))
  have htrans : ∀ a b c : α, (compare (key a) (key b)).isLT = false →
      (compare (key b) (key c)).isLT = false → (compare (key a) (key c)).isLT = false :=
    fun a b c hab hbc => (hle a c).2 (TransCmp.isLE_trans ((hle b c).1 hbc) ((hle a b).1 hab))
  have hall : l.Pairwise fun _ _ => True := List.pairwise_of_forall fun _ _ => trivial
  refine (pairwise_sortBy _ hasymm htrans hall).imp fun {a b} h => ?_
  exact (hle b a).1 (h.elim (hasymm a b) And.left)

theorem pairwise_lt_sortOn {α κ : Type} [Ord κ] [TransOrd κ] [LawfulEqOrd κ] (key : α → κ)
    {l : List α} (h : (l.map key).Nodup) :
    ((sortOn key l).map key).Pairwise (compare · · = .lt) := by
  have hnodup : ((sortOn key l).map key).Nodup := ((sortOn_perm key l).map key).nodup_iff.2 h
  have hle : ((sortOn key l).map key).Pairwise fun x y => (compare x y).isLE = true :=
    List.pairwise_map.2 (pairwise_sortOn key l)
  refine (hle.and hnodup).imp ?_
  rintro x y ⟨hle, hne⟩
  cases hcmp : compare x y with
  | lt => rfl
  | eq => exact absurd (LawfulEqOrd.eq_of_compare hcmp) hne
  | gt =>
    rw [hcmp] at hle
    cases hle

theorem filter_sortBy {α : Type} {lt : α → α → Bool} {p : α → Bool}
    (h : ∀ a b, p a = true → p b = true → lt a b = false) (l : List α) :
    (sortBy lt l).filter p = l.filter p := by
  have hinsert : ∀ (a : α) (l : List α), (insertBy lt a l).filter p = (a :: l).filter p := by
    intro a l
    induction l with
    | nil => rfl
    | cons b bs ih =>
      simp only [insertBy]
      split
      · rename_i hlt
        -- one of the two is left out, so that it does not matter which comes first
        have hone : p a = false ∨ p b = false := by
          by_contra hboth
          simp only [not_or, Bool.not_eq_false] at hboth
          rw [h b a hboth.2 hboth.1] at hlt
          cases hlt
        rw [List.filter_cons, ih]
        rcases hone with hone | hone <;> simp [List.filter_cons, hone]
      · rfl
  induction l with
  | nil => rfl
  | cons a l ih =>
    have hcons : sortBy lt (a :: l) = insertBy lt a (sortBy lt l) := rfl
    rw [hcons, hinsert, List.filter_cons, ih, List.filter_cons]

section Distinct

variable {α : Type} [BEq α] [LawfulBEq α]

theorem idxOf_lt_of_filter {p : α → Bool} {x y : α} {l : List α} (hx : p x = true)
    (hy : p y = true) (h : (l.filter p).idxOf x < (l.filter p).idxOf y) :
    l.idxOf x < l.idxOf y := by
  induction l with
  | nil => simp at h
  | cons a l ih =>
    by_cases hax : a = x
    · subst hax
      by_cases hay : a = y
      · subst hay
        exact absurd h (Nat.lt_irrefl _)
      · simp [hay]
    · by_cases hay : a = y
      · subst hay
        simp [hy] at h
      · simp only [List.idxOf_cons_ne l hax, List.idxOf_cons_ne l hay, Nat.succ_lt_succ_iff]
        refine ih ?_
        by_cases hpa : p a = true
        · simpa [List.filter_cons, hpa, List.idxOf_cons_ne _ hax, List.idxOf_cons_ne _ hay] using h
        · simpa [List.filter_cons, hpa] using h

theorem pairwise_idxOf_eraseDups (l : List α) :
    l.eraseDups.Pairwise fun x y => l.idxOf x < l.idxOf y := by
  induction hlength : l.length using Nat.strongRecOn generalizing l with
  | ind n ih =>
    cases l with
    | nil => simp
    | cons a l =>
      have hlt : (l.filter fun b => !b == a).length < n := by
        rw [← hlength, List.length_cons]
        exact Nat.lt_succ_of_le (List.length_filter_le _ _)
      have hne : ∀ x ∈ (l.filter fun b => !b == a).eraseDups, a ≠ x := by
        intro x hx
        rintro rfl
        simpa using (List.mem_filter.1 (List.mem_eraseDups.1 hx)).2
      rw [List.eraseDups_cons]
      refine List.pairwise_cons.2 ⟨fun x hx => ?_, ?_⟩
      · rw [List.idxOf_cons_self, List.idxOf_cons_ne l (hne x hx)]
        exact Nat.succ_pos _
      · refine (ih _ hlt _ rfl).imp_of_mem fun {x y} hx hy hxy => ?_
        rw [List.idxOf_cons_ne l (hne x hx), List.idxOf_cons_ne l (hne y hy)]
        have hx' := (List.mem_filter.1 (List.mem_eraseDups.1 hx)).2
        have hy' := (List.mem_filter.1 (List.mem_eraseDups.1 hy)).2
        exact Nat.succ_lt_succ (idxOf_lt_of_filter hx' hy' hxy)

end Distinct

end Enclave
