import Enclave.Level.Lattice
import Enclave.Proofs.Collections
import Enclave.Proofs.Reachability
import Enclave.Proofs.Sequencing

/-!
# Enclave.Proofs.Order

The order of a lattice that was built, and its joins. `Lattice.Lawful` is what every later module
assumes of a lattice; `build_lawful` shows that whatever `Lattice.build` returns has it.

`LatticeSpec.LeadsTo` is the order that is declared, between names. `Ordered.dominatedBy_iff` shows
that the order of a lattice is this one, read through the names of its levels.
-/

namespace Enclave

namespace LatticeSpec

/-- The declared pairs lead from one name to the other, in any number of steps. -/
def LeadsTo (spec : LatticeSpec) : String → String → Prop :=
  Relation.ReflTransGen fun x y => (x, y) ∈ spec.order

/-- Two names are declared exclusive, in either order. -/
def Apart (spec : LatticeSpec) (x y : String) : Prop :=
  (x, y) ∈ spec.exclusive ∨ (y, x) ∈ spec.exclusive

theorem Apart.symm {spec : LatticeSpec} {x y : String} (h : spec.Apart x y) : spec.Apart y x :=
  Or.symm h

end LatticeSpec

namespace Lattice

/-- What holds of every lattice that was built. -/
structure Lawful (l : Lattice) : Prop where
  refl : ∀ a, a < l.size → l.dominatedBy a a = true
  trans : ∀ a b c, l.dominatedBy a b = true → l.dominatedBy b c = true → l.dominatedBy a c = true
  antisymm : ∀ a b, l.dominatedBy a b = true → l.dominatedBy b a = true → a = b
  bounded : ∀ a b, l.dominatedBy a b = true → a < l.size ∧ b < l.size
  apart : ∀ a b, l.excludes a b = l.excludes b a
  default : 0 < l.size → ∃ a, l.default = some a ∧ a < l.size
  small : l.size ≤ maxLevels

/-- Two distinct levels that have a join have one of themselves as their join. -/
def Selective (l : Lattice) : Prop :=
  ∀ a < l.size, ∀ b < l.size, a ≠ b → ∀ c ∈ l.join? a b, c = a ∨ c = b

instance (l : Lattice) : Decidable l.Selective :=
  inferInstanceAs (Decidable (∀ a < l.size, ∀ b < l.size, a ≠ b → ∀ c ∈ l.join? a b, c = a ∨ c = b))

section Joins

variable {l : Lattice} {a b c : Level}

theorem leastUpperBound?_eq_some (hl : l.Lawful) (h : l.leastUpperBound? a b = some c) :
    l.dominatedBy a c = true ∧ l.dominatedBy b c = true ∧
      ∀ u, l.dominatedBy a u = true → l.dominatedBy b u = true → l.dominatedBy c u = true := by
  have hmem := List.mem_of_find?_eq_some h
  have hall := List.find?_some h
  simp only [List.mem_filter, Bool.and_eq_true] at hmem
  refine ⟨hmem.2.1, hmem.2.2, fun u hau hbu => ?_⟩
  refine List.all_eq_true.1 hall u (List.mem_filter.2 ⟨?_, by simp [hau, hbu]⟩)
  exact List.mem_range.2 (hl.bounded a u hau).2

theorem leastUpperBound?_of_least (hl : l.Lawful) (ha : l.dominatedBy a c = true)
    (hb : l.dominatedBy b c = true)
    (hleast : ∀ u, l.dominatedBy a u = true → l.dominatedBy b u = true → l.dominatedBy c u = true) :
    l.leastUpperBound? a b = some c := by
  have hsome : (l.leastUpperBound? a b).isSome := by
    refine List.find?_isSome.2 ⟨c, List.mem_filter.2 ⟨?_, by simp [ha, hb]⟩, ?_⟩
    · exact List.mem_range.2 (hl.bounded a c ha).2
    · refine List.all_eq_true.2 fun u hu => ?_
      have hu := (List.mem_filter.1 hu).2
      rw [Bool.and_eq_true] at hu
      exact hleast u hu.1 hu.2
  obtain ⟨d, hd⟩ := Option.isSome_iff_exists.1 hsome
  obtain ⟨had, hbd, hd'⟩ := leastUpperBound?_eq_some hl hd
  rw [hd, hl.antisymm d c (hd' c ha hb) (hleast d had hbd)]

theorem leastUpperBound?_comm (a b : Level) : l.leastUpperBound? a b = l.leastUpperBound? b a := by
  simp only [leastUpperBound?, Bool.and_comm]

theorem join?_eq_some (h : l.join? a b = some c) :
    l.excludes a b = false ∧ l.leastUpperBound? a b = some c := by
  simp only [join?] at h
  split at h
  · cases h
  · rename_i hx
    exact ⟨by simpa using hx, h⟩

theorem join?_comm (hl : l.Lawful) (a b : Level) : l.join? a b = l.join? b a := by
  simp only [join?, hl.apart a b, leastUpperBound?_comm a b]

theorem compatible_comm (hl : l.Lawful) (a b : Level) : l.compatible a b = l.compatible b a := by
  rw [compatible, compatible, join?_comm hl]

theorem le_join_left (hl : l.Lawful) (h : l.join? a b = some c) : l.dominatedBy a c = true :=
  (leastUpperBound?_eq_some hl (join?_eq_some h).2).1

theorem le_join_right (hl : l.Lawful) (h : l.join? a b = some c) : l.dominatedBy b c = true :=
  (leastUpperBound?_eq_some hl (join?_eq_some h).2).2.1

theorem join_le (hl : l.Lawful) (h : l.join? a b = some c) {u : Level}
    (ha : l.dominatedBy a u = true) (hb : l.dominatedBy b u = true) : l.dominatedBy c u = true :=
  (leastUpperBound?_eq_some hl (join?_eq_some h).2).2.2 u ha hb

theorem lt_of_join? (hl : l.Lawful) (h : l.join? a b = some c) : c < l.size :=
  (hl.bounded a c (le_join_left hl h)).2

theorem join?_self (hl : l.Lawful) (h : l.join? a a = some c) : c = a := by
  have hac := le_join_left hl h
  have haa := hl.refl a (hl.bounded a c hac).1
  exact hl.antisymm c a (join_le hl h haa haa) hac

theorem Selective.join (hs : l.Selective) (hl : l.Lawful) (hne : a ≠ b)
    (h : l.join? a b = some c) : c = a ∨ c = b :=
  hs a (hl.bounded a c (le_join_left hl h)).1 b (hl.bounded b c (le_join_right hl h)).1 hne c h

end Joins

section Building

variable {l : Lattice} {names : List String} {spec : LatticeSpec}

theorem lookup?_lt {name : String} {a : Level} (h : l.lookup? name = some a) : a < l.size := by
  rw [lookup?, List.idxOf?_eq_some_iff] at h
  exact h.1

theorem name_of_lookup? {name : String} {a : Level} (h : l.lookup? name = some a) :
    l.name a = name := by
  rw [lookup?, List.idxOf?_eq_some_iff] at h
  obtain ⟨hlt, hname, -⟩ := h
  simp [Lattice.name, List.getD, hlt, hname]

theorem lookup_eq_ok {name : String} {a : Level} :
    l.lookup name = .ok a ↔ l.lookup? name = some a := by
  rw [lookup]
  split <;> simp_all

theorem getElem?_names {a : Level} (ha : a < l.size) : l.names[a]? = some (l.name a) := by
  have hlt : a < l.names.length := ha
  simp [Lattice.name, List.getD, hlt]

theorem lookup?_eq_some_iff (hnodup : l.names.Nodup) {name : String} {a : Level} :
    l.lookup? name = some a ↔ l.names[a]? = some name := by
  constructor
  · intro h
    rw [getElem?_names (lookup?_lt h), name_of_lookup? h]
  · intro h
    obtain ⟨ha, hname⟩ := List.getElem?_eq_some_iff.1 h
    refine List.idxOf?_eq_some_iff.2 ⟨ha, hname, fun j hj heq => ?_⟩
    have hja : j = a := (List.getElem_inj hnodup).1 (heq.trans hname.symm)
    omega

theorem name_injective (hnodup : l.names.Nodup) {a b : Level} (ha : a < l.size) (hb : b < l.size)
    (h : l.name a = l.name b) : a = b := by
  refine (List.getElem?_inj ha hnodup).1 ?_
  rw [getElem?_names ha, getElem?_names hb, h]

theorem lookupPair_eq_ok {p : String × String} {q : Level × Level} :
    l.lookupPair p = .ok q ↔ l.lookup? p.1 = some q.1 ∧ l.lookup? p.2 = some q.2 := by
  constructor
  · intro h
    obtain ⟨a, ha, h⟩ := bind_eq_ok.1 h
    obtain ⟨b, hb, h⟩ := bind_eq_ok.1 h
    cases h
    exact ⟨lookup_eq_ok.1 ha, lookup_eq_ok.1 hb⟩
  · rintro ⟨h₁, h₂⟩
    refine bind_eq_ok.2 ⟨q.1, lookup_eq_ok.2 h₁, bind_eq_ok.2 ⟨q.2, lookup_eq_ok.2 h₂, rfl⟩⟩

theorem lookupPair_lt {p : String × String} {q : Level × Level} (h : l.lookupPair p = .ok q) :
    q.1 < l.size ∧ q.2 < l.size :=
  ⟨lookup?_lt (lookupPair_eq_ok.1 h).1, lookup?_lt (lookupPair_eq_ok.1 h).2⟩

theorem lt_of_lookupPairs {pairs : List (String × String)} {found : List (Level × Level)}
    (h : pairs.mapM l.lookupPair = .ok found) : ∀ q ∈ found, q.1 < l.size ∧ q.2 < l.size := by
  intro q hq
  obtain ⟨p, -, hp⟩ := exists_of_mem_mapM h q hq
  exact lookupPair_lt hp

theorem lookup_eq_error {x : String} {e : LatticeError} (h : l.lookup x = .error e) :
    e = .unknownLevel x := by
  rw [lookup] at h
  split at h
  · cases h
  · cases h
    rfl

theorem unknown_of_lookupPairs {pairs : List (String × String)} {e : LatticeError}
    (h : pairs.mapM l.lookupPair = .error e) : ∃ x, e = .unknownLevel x := by
  obtain ⟨p, -, hp⟩ := exists_of_mapM_eq_error h
  rcases bind_eq_error.1 hp with hp | ⟨a, -, hp⟩
  · exact ⟨p.1, lookup_eq_error hp⟩
  · rcases bind_eq_error.1 hp with hp | ⟨b, -, hp⟩
    · exact ⟨p.2, lookup_eq_error hp⟩
    · cases hp

theorem mem_lookupPairs (hnodup : l.names.Nodup) {pairs : List (String × String)}
    {found : List (Level × Level)} (h : pairs.mapM l.lookupPair = .ok found) {a b : Level} :
    (a, b) ∈ found ↔ a < l.size ∧ b < l.size ∧ (l.name a, l.name b) ∈ pairs := by
  constructor
  · intro hab
    obtain ⟨⟨x, y⟩, hp, hq⟩ := exists_of_mem_mapM h (a, b) hab
    obtain ⟨hx, hy⟩ := lookupPair_eq_ok.1 hq
    obtain ⟨ha, hb⟩ := lookupPair_lt hq
    refine ⟨ha, hb, ?_⟩
    rwa [name_of_lookup? hx, name_of_lookup? hy]
  · rintro ⟨ha, hb, hp⟩
    obtain ⟨⟨c, d⟩, hmem, hq⟩ := exists_mem_of_mapM h hp
    obtain ⟨hc, hd⟩ := lookupPair_eq_ok.1 hq
    cases name_injective hnodup (lookup?_lt hc) ha (name_of_lookup? hc)
    cases name_injective hnodup (lookup?_lt hd) hb (name_of_lookup? hd)
    exact hmem

/-- What a lattice was built from: the pairs of its order and those it keeps apart. -/
theorem build_eq_ok (h : build names spec = .ok l) :
    ∃ order apart, spec.order.mapM l.lookupPair = .ok order ∧
      spec.exclusive.mapM l.lookupPair = .ok apart ∧
      l.names = (SortedSet.ofList (names ++ spec.levels)).toList ∧ l.size ≤ maxLevels ∧
      l.above = closeOrder l.size order ∧ l.cycle? = none ∧
      l.exclusive = apart ++ apart.map Prod.swap ∧
      (l.default = l.bottom?.or l.levels.head? ∨
        ∃ name, spec.default = some name ∧ l.default = l.lookup? name ∧ l.default.isSome) := by
  simp only [build] at h
  split at h
  · cases h
  · rename_i hsize
    obtain ⟨order, horder, h⟩ := bind_eq_ok.1 h
    split at h
    · cases h
    · rename_i hcycle
      obtain ⟨apart, hapart, h⟩ := bind_eq_ok.1 h
      split at h
      · rename_i name hname
        obtain ⟨a, ha, h⟩ := bind_eq_ok.1 h
        cases h
        have ha := lookup_eq_ok.1 ha
        exact ⟨order, apart, horder, hapart, rfl, Nat.not_lt.1 hsize, rfl, hcycle, rfl,
          .inr ⟨name, hname, ha.symm, rfl⟩⟩
      · cases h
        exact ⟨order, apart, horder, hapart, rfl, Nat.not_lt.1 hsize, rfl, hcycle, rfl, .inl rfl⟩

/-- The closed order is what the declared pairs lead to in any number of steps. -/
theorem contains_closeOrder {n : Nat} {order : List (Level × Level)}
    (hin : ∀ p ∈ order, p.1 < n ∧ p.2 < n) {a b : Level} :
    ((closeOrder n order).getD a []).contains b = true ↔
      a < n ∧ Relation.ReflTransGen (fun u v => (u, v) ∈ order) a b := by
  have hleads : ∀ u v, Search.Leads (fun a => (order.filter (·.1 == a)).map (·.2)) u v ↔
      (u, v) ∈ order := by
    intro u v
    simp only [Search.Leads, List.mem_map, List.mem_filter, beq_iff_eq, Prod.exists,
      exists_eq_right]
  have hrel : Search.Leads (fun a => (order.filter (·.1 == a)).map (·.2)) =
      fun u v => (u, v) ∈ order := by
    funext u v
    exact propext (hleads u v)
  by_cases ha : a < n
  · have hget : (closeOrder n order).getD a [] =
        Search.reached n (fun a => (order.filter (·.1 == a)).map (·.2)) [a] := by
      simp [closeOrder, ha]
    rw [hget, List.contains_iff_mem,
      Search.mem_reached fun u v h => (hin _ ((hleads u v).1 h)).2, hrel]
    simp [ha]
  · have hget : (closeOrder n order).getD a [] = [] := by
      simp [closeOrder, ha]
    simp [hget, ha]

/--
Every name that declared pairs lead to is that of a level, since all names of the order were found,
and the pairs of levels lead there too.
-/
theorem exists_level_of_leadsTo (hnodup : l.names.Nodup) {order : List (Level × Level)}
    (horder : spec.order.mapM l.lookupPair = .ok order) {a : Level} (ha : a < l.size) {y : String}
    (h : spec.LeadsTo (l.name a) y) : ∃ c < l.size, l.name c = y ∧
      Relation.ReflTransGen (fun u v => (u, v) ∈ order) a c := by
  induction h with
  | refl => exact ⟨a, ha, rfl, .refl⟩
  | tail _ hstep ih =>
    obtain ⟨c, hc, rfl, hac⟩ := ih
    obtain ⟨⟨c', d⟩, -, hfound⟩ := exists_mem_of_mapM horder hstep
    obtain ⟨-, hd⟩ := lookupPair_eq_ok.1 hfound
    have hname := name_of_lookup? hd
    refine ⟨d, lookup?_lt hd, hname, hac.tail ?_⟩
    rw [mem_lookupPairs hnodup horder, hname]
    exact ⟨hc, lookup?_lt hd, hstep⟩

/--
`l` has the names and the order that are declared. Its exclusive pairs and its default are left
open, so this can also be said of a lattice that is refused for a cycle in its order.
-/
structure Ordered (l : Lattice) (names : List String) (spec : LatticeSpec) : Prop where
  names : l.names = (SortedSet.ofList (names ++ spec.levels)).toList
  above : ∃ order, spec.order.mapM l.lookupPair = .ok order ∧ l.above = closeOrder l.size order

namespace Ordered

theorem ascending (h : l.Ordered names spec) : l.names.Pairwise (· < ·) := by
  rw [h.names]
  exact (SortedSet.ascending _).imp compareOfLessAndEq_eq_lt.1

theorem nodup (h : l.Ordered names spec) : l.names.Nodup := h.ascending.imp String.ne_of_lt

theorem dominatedBy_iff (h : l.Ordered names spec) {a b : Level} :
    l.dominatedBy a b = true ↔
      a < l.size ∧ b < l.size ∧ spec.LeadsTo (l.name a) (l.name b) := by
  obtain ⟨order, horder, habove⟩ := h.above
  have hmem : ∀ u v, (u, v) ∈ order ↔ u < l.size ∧ v < l.size ∧ (l.name u, l.name v) ∈ spec.order :=
    fun u v => mem_lookupPairs h.nodup horder
  have hin := lt_of_lookupPairs horder
  rw [dominatedBy, habove, contains_closeOrder hin]
  refine and_congr_right fun ha => ⟨fun hab => ⟨?_, ?_⟩, fun ⟨hb, hab⟩ => ?_⟩
  · cases hab with
    | refl => exact ha
    | tail _ hlast => exact (hin _ hlast).2
  · exact Relation.ReflTransGen.lift (p := fun x y => (x, y) ∈ spec.order) l.name
      (fun u v huv => ((hmem u v).1 huv).2.2) a b hab
  · obtain ⟨c, hc, hname, hac⟩ := exists_level_of_leadsTo h.nodup horder ha hab
    exact name_injective h.nodup hc hb hname ▸ hac

end Ordered

theorem ordered_of_build (h : build names spec = .ok l) : l.Ordered names spec := by
  obtain ⟨order, -, horder, -, hnames, -, habove, -⟩ := build_eq_ok h
  exact ⟨hnames, order, horder, habove⟩

theorem dominatedBy_iff (h : build names spec = .ok l) {a b : Level} :
    l.dominatedBy a b = true ↔
      a < l.size ∧ b < l.size ∧ spec.LeadsTo (l.name a) (l.name b) :=
  (ordered_of_build h).dominatedBy_iff

theorem excludes_iff (h : build names spec = .ok l) {a b : Level} :
    l.excludes a b = true ↔ a < l.size ∧ b < l.size ∧ spec.Apart (l.name a) (l.name b) := by
  have hnodup := (ordered_of_build h).nodup
  obtain ⟨-, apart, -, hapart, -, -, -, -, hexcl, -⟩ := build_eq_ok h
  have hswap : (a, b) ∈ apart.map Prod.swap ↔ (b, a) ∈ apart := by simp
  rw [excludes, hexcl, List.contains_iff_mem, List.mem_append, hswap,
    mem_lookupPairs hnodup hapart, mem_lookupPairs hnodup hapart, LatticeSpec.Apart]
  tauto

theorem cycle?_eq_some {a b : Level} (h : l.cycle? = some (a, b)) :
    a < b ∧ b < l.size ∧ l.dominatedBy a b = true ∧ l.dominatedBy b a = true := by
  obtain ⟨x, -, h⟩ := List.exists_of_findSome?_eq_some h
  obtain ⟨y, hy, h⟩ := Option.map_eq_some_iff.1 h
  cases h
  have hcheck := List.find?_some hy
  simp only [Bool.and_eq_true, decide_eq_true_eq] at hcheck
  exact ⟨hcheck.1.1, List.mem_range.1 (List.mem_of_find?_eq_some hy), hcheck.1.2, hcheck.2⟩

theorem eq_of_cycle?_eq_none (h : l.cycle? = none) {a b : Level} (ha : a < l.size) (hb : b < l.size)
    (hab : l.dominatedBy a b = true) (hba : l.dominatedBy b a = true) : a = b := by
  have hlt : ∀ x y, x < l.size → y < l.size → x < y → l.dominatedBy x y = true →
      l.dominatedBy y x = true → False := by
    intro x y hx hy hxy hd hd'
    simp only [cycle?, List.findSome?_eq_none_iff, Option.map_eq_none_iff, List.find?_eq_none,
      levels, List.mem_range] at h
    exact h x hx y hy (by simp [hxy, hd, hd'])
  rcases Nat.lt_trichotomy a b with hlt' | rfl | hlt'
  · exact (hlt a b ha hb hlt' hab hba).elim
  · rfl
  · exact (hlt b a hb ha hlt' hba hab).elim

theorem build_lawful (h : build names spec = .ok l) : l.Lawful := by
  obtain ⟨-, -, -, -, -, hsmall, -, hcycle, -, hdefault⟩ := build_eq_ok h
  have hbounded : ∀ a b, l.dominatedBy a b = true → a < l.size ∧ b < l.size := by
    intro a b hab
    obtain ⟨ha, hb, -⟩ := (dominatedBy_iff h).1 hab
    exact ⟨ha, hb⟩
  refine ⟨fun a ha => (dominatedBy_iff h).2 ⟨ha, ha, .refl⟩, fun a b c hab hbc => ?_,
    fun a b hab hba => ?_, hbounded, fun a b => ?_, fun hpos => ?_, hsmall⟩
  · obtain ⟨ha, -, hab⟩ := (dominatedBy_iff h).1 hab
    obtain ⟨-, hc, hbc⟩ := (dominatedBy_iff h).1 hbc
    exact (dominatedBy_iff h).2 ⟨ha, hc, hab.trans hbc⟩
  · exact eq_of_cycle?_eq_none hcycle (hbounded a b hab).1 (hbounded a b hab).2 hab hba
  · have hsymm : ∀ a b, l.excludes a b = true → l.excludes b a = true := by
      intro a b hab
      obtain ⟨ha, hb, hab⟩ := (excludes_iff h).1 hab
      exact (excludes_iff h).2 ⟨hb, ha, hab.symm⟩
    exact Bool.eq_iff_iff.2 ⟨hsymm a b, hsymm b a⟩
  · have hlevel : ∀ a, a ∈ l.levels → a < l.size := fun a ha => List.mem_range.1 ha
    rcases hdefault with hd | ⟨name, -, hd, hsome⟩
    · rw [hd]
      cases hb : l.bottom? with
      | some b => exact ⟨b, rfl, hlevel b (List.mem_of_find?_eq_some hb)⟩
      | none =>
        refine ⟨0, ?_, hpos⟩
        rw [Option.none_or, levels, List.head?_range, if_neg (by omega)]
    · obtain ⟨a, ha⟩ := Option.isSome_iff_exists.1 hsome
      exact ⟨a, ha, lookup?_lt (hd ▸ ha)⟩

end Building

end Lattice

end Enclave
