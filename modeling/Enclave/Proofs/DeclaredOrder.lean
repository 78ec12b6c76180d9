import Enclave.Proofs.OrderMatrix
import Mathlib.Data.Finset.Card

/-!
# Enclave.Proofs.DeclaredOrder

What is declared of the levels, and what is built of it. A lattice has the declared names in
ascending order, each found at its place, and its order is the declared one, closed under
reflexivity and transitivity. An order is refused as cyclic exactly when two distinct levels lead to
each other by it. Names that are found by halving and a matrix that is closed in place are another
way to the same lattice.

* `build_closes_order`: all of this, for all names and for whatever is declared of them.
-/

namespace Enclave

namespace Lattice

variable {l : Lattice} {names : List String} {spec : LatticeSpec}

theorem mem_names_iff {x : String} : x ∈ l.names ↔ ∃ a < l.size, l.name a = x := by
  rw [List.mem_iff_getElem?]
  constructor
  · rintro ⟨a, ha⟩
    have hlt : a < l.size := (List.getElem?_eq_some_iff.1 ha).1
    rw [getElem?_names hlt] at ha
    exact ⟨a, hlt, Option.some.inj ha⟩
  · rintro ⟨a, ha, rfl⟩
    exact ⟨a, getElem?_names ha⟩

theorem exists_lookup?_iff {x : String} : (∃ a, l.lookup? x = some a) ↔ x ∈ l.names := by
  rw [← Option.isSome_iff_exists, lookup?, List.isSome_idxOf?]

theorem exists_lookupPair_iff {p : String × String} :
    (∃ q, l.lookupPair p = .ok q) ↔ p.1 ∈ l.names ∧ p.2 ∈ l.names := by
  rw [← exists_lookup?_iff, ← exists_lookup?_iff]
  constructor
  · rintro ⟨⟨a, b⟩, hq⟩
    obtain ⟨ha, hb⟩ := lookupPair_eq_ok.1 hq
    exact ⟨⟨a, ha⟩, ⟨b, hb⟩⟩
  · rintro ⟨⟨a, ha⟩, ⟨b, hb⟩⟩
    exact ⟨(a, b), lookupPair_eq_ok.2 ⟨ha, hb⟩⟩

namespace Ordered

theorem mem_names (h : l.Ordered names spec) {x : String} :
    x ∈ l.names ↔ x ∈ names ++ spec.levels := by
  rw [h.names, SortedSet.mem_ofList]

theorem size_eq (h : l.Ordered names spec) : l.size = (names ++ spec.levels).toFinset.card := by
  rw [size, ← List.toFinset_card_of_nodup h.nodup]
  congr 1
  ext x
  rw [List.mem_toFinset, List.mem_toFinset, h.mem_names]

theorem exists_cycle?_iff (h : l.Ordered names spec) :
    (∃ p, l.cycle? = some p) ↔ ∃ x ∈ names ++ spec.levels, ∃ y ∈ names ++ spec.levels,
      x ≠ y ∧ spec.LeadsTo x y ∧ spec.LeadsTo y x := by
  constructor
  · rintro ⟨⟨a, b⟩, hcycle⟩
    obtain ⟨hlt, -, hab, hba⟩ := cycle?_eq_some hcycle
    obtain ⟨ha, hb, hab⟩ := h.dominatedBy_iff.1 hab
    obtain ⟨-, -, hba⟩ := h.dominatedBy_iff.1 hba
    refine ⟨l.name a, h.mem_names.1 (mem_names_iff.2 ⟨a, ha, rfl⟩), l.name b,
      h.mem_names.1 (mem_names_iff.2 ⟨b, hb, rfl⟩), fun heq => ?_, hab, hba⟩
    exact Nat.ne_of_lt hlt (name_injective h.nodup ha hb heq)
  · rintro ⟨x, hx, y, hy, hne, hxy, hyx⟩
    obtain ⟨a, ha, rfl⟩ := mem_names_iff.1 (h.mem_names.2 hx)
    obtain ⟨b, hb, rfl⟩ := mem_names_iff.1 (h.mem_names.2 hy)
    rw [← Option.ne_none_iff_exists']
    intro hnone
    have hab := h.dominatedBy_iff.2 ⟨ha, hb, hxy⟩
    have hba := h.dominatedBy_iff.2 ⟨hb, ha, hyx⟩
    exact hne (congrArg l.name (eq_of_cycle?_eq_none hnone ha hb hab hba))

end Ordered

theorem exists_ordered_iff : (∃ l : Lattice, l.Ordered names spec) ↔
    ∀ p ∈ spec.order, p.1 ∈ names ++ spec.levels ∧ p.2 ∈ names ++ spec.levels := by
  constructor
  · rintro ⟨l, h⟩ p hp
    obtain ⟨order, horder, -⟩ := h.above
    rw [← h.mem_names, ← h.mem_names]
    obtain ⟨q, -, hq⟩ := exists_mem_of_mapM horder hp
    exact exists_lookupPair_iff.1 ⟨q, hq⟩
  · intro h
    have hfound : ∀ p ∈ spec.order, ∃ q, Lattice.lookupPair
        ⟨(SortedSet.ofList (names ++ spec.levels)).toList, #[], [], none⟩ p = .ok q := by
      intro p hp
      refine exists_lookupPair_iff.2 ?_
      rw [SortedSet.mem_ofList, SortedSet.mem_ofList]
      exact h p hp
    obtain ⟨order, horder⟩ := mapM_isOk_iff.2 hfound
    exact ⟨⟨_, closeOrder (SortedSet.ofList (names ++ spec.levels)).size order, [], none⟩,
      rfl, order, horder, rfl⟩

section Refusal

/-- A lattice is refused as cyclic for the first cycle in its closed order. -/
theorem build_eq_cyclicOrder {x y : String} :
    build names spec = .error (.cyclicOrder x y) ↔
      ∃ l : Lattice, l.Ordered names spec ∧ l.size ≤ maxLevels ∧
        ∃ a b, l.cycle? = some (a, b) ∧ l.name a = x ∧ l.name b = y := by
  constructor
  · intro h
    simp only [build] at h
    split at h
    · cases h
    · rename_i hsize
      rcases bind_eq_error.1 h with h | ⟨order, horder, h⟩
      · obtain ⟨z, hz⟩ := unknown_of_lookupPairs h
        cases hz
      split at h
      · rename_i a b hcycle
        cases h
        refine ⟨_, ?_, ?_, a, b, hcycle, rfl, rfl⟩
        · exact ⟨rfl, order, horder, rfl⟩
        · exact Nat.not_lt.1 hsize
      · rcases bind_eq_error.1 h with h | ⟨apart, -, h⟩
        · obtain ⟨z, hz⟩ := unknown_of_lookupPairs h
          cases hz
        split at h
        · rcases bind_eq_error.1 h with h | ⟨a, -, h⟩
          · cases lookup_eq_error h
          · cases h
        · cases h
  · rintro ⟨⟨found, above, apart, start⟩, ⟨hnames, order, horder, habove⟩, hsmall, a, b, hcycle,
      rfl, rfl⟩
    -- names and order are all that the search for a cycle reads
    dsimp only [size] at hnames habove
    subst hnames habove
    simp only [build]
    split
    · rename_i hlarge
      exact absurd hsmall (Nat.not_le.2 hlarge)
    · refine bind_eq_error.2 (.inr ⟨order, horder, ?_⟩)
      split
      · rename_i a' b' hcycle'
        cases hcycle.symm.trans hcycle'
        rfl
      · rename_i hnone
        cases hcycle.symm.trans hnone

end Refusal

/-- Closing a matrix in place reports the cycles that building reports. -/
theorem assemble_eq_cyclicOrder {x y : String} :
    OrderTable.assemble names spec = .error (.cyclicOrder x y) ↔
      build names spec = .error (.cyclicOrder x y) := by
  rw [build_eq_cyclicOrder]
  constructor
  · intro h
    obtain ⟨l, hordered, hsmall⟩ := OrderTable.exists_ordered_of_assemble h
    refine ⟨l, hordered, hsmall, ?_⟩
    rcases OrderTable.assemble_of_ordered hordered hsmall with ⟨-, t, ht, -⟩ | ⟨a, b, hcycle, hab⟩
    · cases h.symm.trans ht
    · cases h.symm.trans hab
      exact ⟨a, b, hcycle, rfl, rfl⟩
  · rintro ⟨l, hordered, hsmall, a, b, hcycle, rfl, rfl⟩
    rcases OrderTable.assemble_of_ordered hordered hsmall with ⟨hnone, -⟩ | ⟨c, d, hcycle', hcd⟩
    · cases hcycle.symm.trans hnone
    · cases hcycle.symm.trans hcycle'
      exact hcd

theorem exists_mirrors_of_build (h : build names spec = .ok l) :
    ∃ t, OrderTable.assemble names spec = .ok t ∧ t.Mirrors l := by
  obtain ⟨-, -, -, -, -, hsmall, -, hnone, -⟩ := build_eq_ok h
  rcases OrderTable.assemble_of_ordered (ordered_of_build h) hsmall with ⟨-, ht⟩ | ⟨a, b, hcycle, -⟩
  · exact ht
  · cases hnone.symm.trans hcycle

/--
A lattice that is built has all given and configured names in ascending order and finds each name at
its place and no other. It orders two levels exactly if the declared pairs lead from one to the
other, and that is a partial order. Building refuses an order as cyclic exactly if there are at most
256 distinct names, all names in the order are among them, and two distinct ones lead to each other.
The matrix of the declared pairs, closed in place over all pivots while its rows are read, together
with a search for names that halves their array, has the same names, places, order and cycles.
-/
theorem build_closes_order (names : List String) (spec : LatticeSpec) :
    (∀ l, build names spec = .ok l →
      l.names.Pairwise (· < ·) ∧ (∀ x, x ∈ l.names ↔ x ∈ names ++ spec.levels) ∧
      (∀ x a, l.lookup x = .ok a ↔ l.names[a]? = some x) ∧
      (∀ a b, l.dominatedBy a b = true ↔
        a < l.size ∧ b < l.size ∧ spec.LeadsTo (l.name a) (l.name b)) ∧
      IsPartialOrder (Fin l.size) (fun a b => l.dominatedBy a b = true) ∧
      ∃ t, OrderTable.assemble names spec = .ok t ∧ t.Mirrors l) ∧
    ((∃ x y, build names spec = .error (.cyclicOrder x y)) ↔
      (names ++ spec.levels).toFinset.card ≤ 256 ∧
      (∀ p ∈ spec.order, p.1 ∈ names ++ spec.levels ∧ p.2 ∈ names ++ spec.levels) ∧
      ∃ x ∈ names ++ spec.levels, ∃ y ∈ names ++ spec.levels,
        x ≠ y ∧ spec.LeadsTo x y ∧ spec.LeadsTo y x) ∧
    ∀ x y, OrderTable.assemble names spec = .error (.cyclicOrder x y) ↔
      build names spec = .error (.cyclicOrder x y) := by
  refine ⟨fun l h => ?_, ?_, fun x y => assemble_eq_cyclicOrder⟩
  · have hordered := ordered_of_build h
    have hlawful := build_lawful h
    refine ⟨hordered.ascending, fun x => hordered.mem_names, fun x a => ?_,
      fun a b => hordered.dominatedBy_iff, ?_, exists_mirrors_of_build h⟩
    · rw [lookup_eq_ok, lookup?_eq_some_iff hordered.nodup]
    · exact { refl := fun a => hlawful.refl a a.isLt
              trans := fun a b c => hlawful.trans a b c
              antisymm := fun a b hab hba => Fin.ext (hlawful.antisymm a b hab hba) }
  · simp only [build_eq_cyclicOrder]
    constructor
    · rintro ⟨x, y, l, h, hsmall, a, b, hcycle, -, -⟩
      rw [← h.size_eq]
      exact ⟨hsmall, exists_ordered_iff.1 ⟨l, h⟩, h.exists_cycle?_iff.1 ⟨_, hcycle⟩⟩
    · rintro ⟨hsmall, hknown, hloop⟩
      obtain ⟨l, h⟩ := exists_ordered_iff.2 hknown
      obtain ⟨⟨a, b⟩, hcycle⟩ := h.exists_cycle?_iff.2 hloop
      exact ⟨l.name a, l.name b, l, h, h.size_eq ▸ hsmall, a, b, hcycle, rfl, rfl⟩

/-- Three levels in a row, one of them only configured, and what else is said of their order. -/
def layered (more : List (String × String)) : LatticeSpec where
  levels := ["middle", "open"]
  order := [("open", "middle"), ("middle", "secret")] ++ more

theorem build_closes_order_layered :
    (∃ l, build ["secret", "open"] (layered []) = .ok l ∧ l.lookup "open" = .ok 1 ∧
      l.dominatedBy 1 2 = true ∧ l.name 2 = "secret" ∧
      ∃ t, OrderTable.assemble ["secret", "open"] (layered []) = .ok t ∧ t.Mirrors l) ∧
    ∃ x y, build ["secret", "open"] (layered [("secret", "open")]) = .error (.cyclicOrder x y) := by
  have hup : ∀ more, (layered more).LeadsTo "open" "secret" := fun more =>
    .tail (.single (List.mem_cons_self : ("open", "middle") ∈ (layered more).order))
      (List.mem_cons_of_mem _ List.mem_cons_self)
  constructor
  · have hrun : (build ["secret", "open"] (layered [])).toOption.any
        (fun l => l.names == ["middle", "open", "secret"]) = true := by
      decide +kernel
    obtain ⟨l, hl, hcheck⟩ := exists_ok_of_any hrun
    have hnames : l.names = ["middle", "open", "secret"] := eq_of_beq hcheck
    obtain ⟨-, -, hlookup, horder, -, htable⟩ := (build_closes_order _ _).1 l hl
    have hsize : l.size = 3 := by rw [size, hnames]; rfl
    have hopen : l.name 1 = "open" := by rw [name, hnames]; rfl
    have hsecret : l.name 2 = "secret" := by rw [name, hnames]; rfl
    refine ⟨l, hl, (hlookup "open" 1).2 (by rw [hnames]; rfl), (horder 1 2).2 ?_, hsecret,
      htable⟩
    rw [hsize, hopen, hsecret]
    exact ⟨by decide, by decide, hup []⟩
  · refine (build_closes_order _ _).2.1.2 ⟨by decide, by decide, "open", by decide, "secret",
      by decide, by decide, hup _, ?_⟩
    exact .single (by decide)

end Lattice

end Enclave
