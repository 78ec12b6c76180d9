import Enclave.Proofs.Order

/-!
# Enclave.Proofs.Bounds

Joins as least upper bounds. `l.IsBound spec as c` says of the declared order alone, whatever the
lattice keeps of it, that `c` is the least level above all of `as`.

* `join_least`: two levels that are not declared exclusive have their bound as join, if they have
  one, and all others are incompatible.
* `compatible_unless_self_exclusive`: a level may stand beside itself, and beside another with which
  it has a join, unless it is declared exclusive with itself.
* `joinAll_least`: the join of a list is the bound of its levels, in whatever order they are listed.
-/

namespace Enclave

namespace Lattice

/-- Both are levels, and the declared pairs lead from the one to the other. -/
def Below (l : Lattice) (spec : LatticeSpec) (a b : Level) : Prop :=
  a < l.size ∧ b < l.size ∧ spec.LeadsTo (l.name a) (l.name b)

/-- `c` is the least of the levels that every level of `as` is below. -/
structure IsBound (l : Lattice) (spec : LatticeSpec) (as : List Level) (c : Level) : Prop where
  lt : c < l.size
  above : ∀ a ∈ as, l.Below spec a c
  least : ∀ u < l.size, (∀ a ∈ as, l.Below spec a u) → l.Below spec c u

/-- Two levels that are below a common one have a least one above them. -/
def BoundedComplete (l : Lattice) (spec : LatticeSpec) : Prop :=
  ∀ a b u, l.Below spec a u → l.Below spec b u → ∃ c, l.IsBound spec [a, b] c

variable {l : Lattice} {names : List String} {spec : LatticeSpec} {a b c : Level}

section Pairs

theorem below_iff (h : build names spec = .ok l) :
    l.Below spec a b ↔ l.dominatedBy a b = true :=
  (dominatedBy_iff h).symm

theorem Below.refl (ha : a < l.size) : l.Below spec a a := ⟨ha, ha, .refl⟩

theorem Below.trans (hab : l.Below spec a b) (hbc : l.Below spec b c) : l.Below spec a c :=
  ⟨hab.1, hbc.2.1, hab.2.2.trans hbc.2.2⟩

theorem isBound_pair_iff : l.IsBound spec [a, b] c ↔ l.Below spec a c ∧ l.Below spec b c ∧
    ∀ u, l.Below spec a u → l.Below spec b u → l.Below spec c u := by
  have hpair : ∀ u, (∀ x ∈ [a, b], l.Below spec x u) ↔ l.Below spec a u ∧ l.Below spec b u := by
    intro u
    simp
  constructor
  · rintro ⟨-, habove, hleast⟩
    obtain ⟨hac, hbc⟩ := (hpair c).1 habove
    exact ⟨hac, hbc, fun u hau hbu => hleast u hau.2.1 ((hpair u).2 ⟨hau, hbu⟩)⟩
  · rintro ⟨hac, hbc, hleast⟩
    refine ⟨hac.2.1, (hpair c).2 ⟨hac, hbc⟩, fun u _ hu => ?_⟩
    obtain ⟨hau, hbu⟩ := (hpair u).1 hu
    exact hleast u hau hbu

theorem isBound_pair_of_below (hab : l.Below spec a b) : l.IsBound spec [a, b] b :=
  isBound_pair_iff.2 ⟨hab, .refl hab.2.1, fun _ _ hbu => hbu⟩

theorem leastUpperBound?_eq_some_iff (h : build names spec = .ok l) :
    l.leastUpperBound? a b = some c ↔ l.IsBound spec [a, b] c := by
  have hlawful := build_lawful h
  simp only [isBound_pair_iff, below_iff h]
  constructor
  · exact leastUpperBound?_eq_some hlawful
  · rintro ⟨hac, hbc, hleast⟩
    exact leastUpperBound?_of_least hlawful hac hbc hleast

theorem join?_eq_some_iff (h : build names spec = .ok l) :
    l.join? a b = some c ↔
      ¬ spec.Apart (l.name a) (l.name b) ∧ l.IsBound spec [a, b] c := by
  rw [← leastUpperBound?_eq_some_iff h]
  constructor
  · intro hc
    obtain ⟨hfree, hbound⟩ := join?_eq_some hc
    refine ⟨fun hapart => ?_, hbound⟩
    -- exclusive names make exclusive levels, since what has a bound is a level
    obtain ⟨hac, hbc, -⟩ := isBound_pair_iff.1 ((leastUpperBound?_eq_some_iff h).1 hbound)
    have hexcl := (excludes_iff h).2 ⟨hac.1, hbc.1, hapart⟩
    rw [hfree] at hexcl
    cases hexcl
  · rintro ⟨hfree, hbound⟩
    have hexcl : ¬ l.excludes a b = true := fun hx => hfree ((excludes_iff h).1 hx).2.2
    rw [join?, if_neg hexcl, hbound]

theorem join_eq_ok : l.join a b = .ok c ↔ l.join? a b = some c := by
  rw [join]
  split <;> simp_all

theorem join_eq_incompatible :
    l.join a b = .error (.incompatible (l.name a) (l.name b)) ↔ l.join? a b = none := by
  rw [join]
  split <;> simp_all

theorem compatible_iff : l.compatible a b = true ↔ ∃ c, l.join? a b = some c := by
  rw [compatible, Option.isSome_iff_exists]

/--
The join of two levels is the least level above both in the declared order, if there is one and they
are not declared exclusive; otherwise the two are incompatible. So it does not matter which of them
comes first, and the join of a level with one above it is the latter.
-/
theorem join_least (h : build names spec = .ok l) (a b : Level) :
    (∀ c, l.join a b = .ok c ↔
      ¬ spec.Apart (l.name a) (l.name b) ∧ l.IsBound spec [a, b] c) ∧
    (l.join a b = .error (.incompatible (l.name a) (l.name b)) ↔
      ¬ (¬ spec.Apart (l.name a) (l.name b) ∧ ∃ c, l.IsBound spec [a, b] c)) ∧
    (∀ c, l.join a b = .ok c ↔ l.join b a = .ok c) ∧
    l.compatible a b = l.compatible b a ∧
    (l.dominatedBy a b = true → ¬ spec.Apart (l.name a) (l.name b) → l.join a b = .ok b) := by
  have hlawful := build_lawful h
  refine ⟨fun c => ?_, ?_, fun c => ?_, compatible_comm hlawful a b, fun hab hfree => ?_⟩
  · rw [join_eq_ok, join?_eq_some_iff h]
  · rw [join_eq_incompatible, Option.eq_none_iff_forall_ne_some, ← exists_and_left, not_exists]
    exact forall_congr' fun c => not_congr (join?_eq_some_iff h)
  · rw [join_eq_ok, join_eq_ok, join?_comm hlawful]
  · have hbound := isBound_pair_of_below ((below_iff h).2 hab)
    exact join_eq_ok.2 ((join?_eq_some_iff h).2 ⟨hfree, hbound⟩)

/-- Two levels side by side, a lowest and a highest one, and pairs of them that are exclusive. -/
def diamond (exclusive : List (String × String)) : LatticeSpec where
  levels := ["orange", "purple", "secret", "unclassified"]
  order := [("unclassified", "orange"), ("unclassified", "purple"), ("orange", "secret"),
    ("purple", "secret")]
  exclusive := exclusive

theorem join_least_diamond : ∃ l, build [] (diamond [("secret", "purple")]) = .ok l ∧
    l.IsBound (diamond [("secret", "purple")]) [0, 1] 2 ∧
    l.join 1 2 = .error (.incompatible (l.name 1) (l.name 2)) := by
  have hrun : (build [] (diamond [("secret", "purple")])).toOption.any (fun l =>
      l.join? 0 1 == some 2 && l.name 1 == "purple" && l.name 2 == "secret") = true := by
    decide +kernel
  obtain ⟨l, hl, hcheck⟩ := exists_ok_of_any hrun
  simp only [Bool.and_eq_true, beq_iff_eq] at hcheck
  obtain ⟨⟨hjoin, hpurple⟩, hsecret⟩ := hcheck
  refine ⟨l, hl, (((join_least hl 0 1).1 2).1 (join_eq_ok.2 hjoin)).2, ?_⟩
  refine (join_least hl 1 2).2.1.2 fun hfree => hfree.1 ?_
  rw [hpurple, hsecret]
  exact .inr List.mem_cons_self

/--
Two levels are compatible if they are the same, or if they are not declared exclusive and have a
least level above both; except that a level that is declared exclusive with itself is not even
compatible with itself.
-/
theorem compatible_unless_self_exclusive (h : build names spec = .ok l) (ha : a < l.size)
    (b : Level) :
    l.compatible a b = true ↔
      (a = b ∨ ¬ spec.Apart (l.name a) (l.name b) ∧ ∃ c, l.IsBound spec [a, b] c) ∧
      ¬ (a = b ∧ (l.name a, l.name a) ∈ spec.exclusive) := by
  simp only [compatible_iff, join?_eq_some_iff h, exists_and_left]
  by_cases hab : a = b
  · -- a level is its own bound, so between it and itself only exclusion can stand
    subst hab
    have hself : ∃ c, l.IsBound spec [a, a] c := ⟨a, isBound_pair_of_below (.refl ha)⟩
    simp [hself, LatticeSpec.Apart]
  · simp [hab]

theorem compatible_unless_self_exclusive_diamond :
    ∃ l, build [] (diamond [("secret", "purple"), ("orange", "orange")]) = .ok l ∧ 0 < l.size ∧
      (∃ c, l.IsBound (diamond [("secret", "purple"), ("orange", "orange")]) [0, 1] c) ∧
      l.compatible 0 0 = false := by
  have hrun : (build [] (diamond [("secret", "purple"), ("orange", "orange")])).toOption.any
      (fun l => decide (0 < l.size) && l.compatible 0 1 && l.name 0 == "orange") = true := by
    decide +kernel
  obtain ⟨l, hl, hcheck⟩ := exists_ok_of_any hrun
  simp only [Bool.and_eq_true, decide_eq_true_eq, beq_iff_eq] at hcheck
  obtain ⟨⟨hpos, hbeside⟩, horange⟩ := hcheck
  obtain ⟨hbound, -⟩ := (compatible_unless_self_exclusive hl hpos 1).1 hbeside
  refine ⟨l, hl, hpos, (hbound.resolve_left (by decide)).2, ?_⟩
  rw [Bool.eq_false_iff]
  intro hself
  refine ((compatible_unless_self_exclusive hl hpos 0).1 hself).2 ⟨rfl, ?_⟩
  rw [horange]
  exact List.mem_cons_of_mem _ List.mem_cons_self

/-- A level that is declared exclusive with itself may not stand beside itself. -/
theorem level_incompatible_with_itself :
    ∃ l, build ["purple"] { exclusive := [("purple", "purple")] } = .ok l ∧
      l.lookup? "purple" = some 0 ∧ l.compatible 0 0 = false := by
  have hrun : (build ["purple"] { exclusive := [("purple", "purple")] }).toOption.any
      (fun l => l.lookup? "purple" == some 0 && l.compatible 0 0 == false) = true := by
    decide +kernel
  obtain ⟨l, hl, hcheck⟩ := exists_ok_of_any hrun
  simp only [Bool.and_eq_true, beq_iff_eq] at hcheck
  exact ⟨l, hl, hcheck⟩

end Pairs

section Lists

variable {as bs : List Level}

theorem IsBound.congr (hmem : ∀ a, a ∈ as ↔ a ∈ bs) (hc : l.IsBound spec as c) :
    l.IsBound spec bs c := by
  refine ⟨hc.lt, fun a ha => hc.above a ((hmem a).2 ha), fun u hu hbs => ?_⟩
  exact hc.least u hu fun a ha => hbs a ((hmem a).1 ha)

theorem IsBound.unique (h : build names spec = .ok l) {d : Level} (hc : l.IsBound spec as c)
    (hd : l.IsBound spec as d) : c = d := by
  have hcd := (below_iff h).1 (hc.least d hd.lt hd.above)
  have hdc := (below_iff h).1 (hd.least c hc.lt hc.above)
  exact (build_lawful h).antisymm c d hcd hdc

theorem isBound_singleton (ha : a < l.size) : l.IsBound spec [a] a := by
  refine ⟨ha, fun x hx => ?_, fun u _ hu => hu a List.mem_cons_self⟩
  cases List.mem_singleton.1 hx
  exact .refl ha

theorem IsBound.join (h : build names spec = .ok l) (ha : l.IsBound spec as a)
    (hc : l.join a b = .ok c) : l.IsBound spec (as ++ [b]) c := by
  obtain ⟨-, hbound⟩ := (join?_eq_some_iff h).1 (join_eq_ok.1 hc)
  obtain ⟨hac, hbc, hleast⟩ := isBound_pair_iff.1 hbound
  refine ⟨hac.2.1, fun x hx => ?_, fun u hu hall => ?_⟩
  · rcases List.mem_append.1 hx with hx | hx
    · exact (ha.above x hx).trans hac
    · cases List.mem_singleton.1 hx
      exact hbc
  · refine hleast u (ha.least u hu fun x hx => hall x (List.mem_append_left _ hx)) ?_
    exact hall b (List.mem_append_right _ List.mem_cons_self)

theorem IsBound.foldlM (h : build names spec = .ok l) (ha : l.IsBound spec as a)
    (hc : bs.foldlM l.join a = .ok c) : l.IsBound spec (as ++ bs) c := by
  -- `as` holds what has been joined so far
  induction bs generalizing as a with
  | nil =>
    cases hc
    rwa [List.append_nil]
  | cons b bs ih =>
    rw [List.foldlM_cons] at hc
    obtain ⟨d, hd, hc⟩ := bind_eq_ok.1 hc
    have hbound := ih (ha.join h hd) hc
    rwa [List.append_assoc] at hbound

theorem joinAll_cons_eq_ok {r : Option Level} :
    l.joinAll (a :: as) = .ok r ↔ ∃ c, r = some c ∧ as.foldlM l.join a = .ok c := by
  rw [joinAll, bind_eq_ok]
  constructor
  · rintro ⟨c, hc, hr⟩
    cases hr
    exact ⟨c, rfl, hc⟩
  · rintro ⟨c, rfl, hc⟩
    exact ⟨c, hc, rfl⟩

theorem exists_bound_of_joinAll (h : build names spec = .ok l) (has : ∀ a ∈ as, a < l.size)
    (hne : as ≠ []) {r : Option Level} (hr : l.joinAll as = .ok r) :
    ∃ c, r = some c ∧ l.IsBound spec as c := by
  cases as with
  | nil => exact absurd rfl hne
  | cons a as =>
    obtain ⟨c, rfl, hc⟩ := joinAll_cons_eq_ok.1 hr
    exact ⟨c, rfl, (isBound_singleton (has a List.mem_cons_self)).foldlM h hc⟩

theorem joinAll_eq_of_mem_iff (h : build names spec = .ok l) (has : ∀ a ∈ as, a < l.size)
    (hmem : ∀ a, a ∈ as ↔ a ∈ bs) {r s : Option Level} (hr : l.joinAll as = .ok r)
    (hs : l.joinAll bs = .ok s) : r = s := by
  by_cases hne : as = []
  · have hbs : bs = [] := by
      refine List.eq_nil_iff_forall_not_mem.2 fun a ha => ?_
      simpa [hne] using (hmem a).2 ha
    subst hne hbs
    exact Except.ok.inj (hr.symm.trans hs)
  · have hbs : bs ≠ [] := by
      obtain ⟨a, ha⟩ := List.exists_mem_of_ne_nil as hne
      exact List.ne_nil_of_mem ((hmem a).1 ha)
    obtain ⟨c, rfl, hc⟩ := exists_bound_of_joinAll h has hne hr
    obtain ⟨d, rfl, hd⟩ :=
      exists_bound_of_joinAll h (fun a ha => has a ((hmem a).2 ha)) hbs hs
    rw [(hc.congr hmem).unique h hd]

section Complete

variable {u : Level}

theorem exists_join_of_below (h : build names spec = .ok l) (hfree : spec.exclusive = [])
    (hcomplete : l.BoundedComplete spec) (ha : l.Below spec a u) (hb : l.Below spec b u) :
    ∃ c, l.join a b = .ok c ∧ l.Below spec c u := by
  obtain ⟨c, hc⟩ := hcomplete a b u ha hb
  have hnot : ¬ spec.Apart (l.name a) (l.name b) := by
    simp [LatticeSpec.Apart, hfree]
  exact ⟨c, join_eq_ok.2 ((join?_eq_some_iff h).2 ⟨hnot, hc⟩),
    (isBound_pair_iff.1 hc).2.2 u ha hb⟩

theorem exists_foldlM_of_below (h : build names spec = .ok l) (hfree : spec.exclusive = [])
    (hcomplete : l.BoundedComplete spec) (ha : l.Below spec a u)
    (hbs : ∀ b ∈ bs, l.Below spec b u) : ∃ c, bs.foldlM l.join a = .ok c := by
  induction bs generalizing a with
  | nil => exact ⟨a, rfl⟩
  | cons b bs ih =>
    obtain ⟨hb, hbs⟩ := List.forall_mem_cons.1 hbs
    -- the common level stays above what has been joined
    obtain ⟨d, hd, hdu⟩ := exists_join_of_below h hfree hcomplete ha hb
    obtain ⟨c, hc⟩ := ih hdu hbs
    refine ⟨c, ?_⟩
    rw [List.foldlM_cons, hd, ok_bind, hc]

theorem exists_joinAll_iff (h : build names spec = .ok l) (hfree : spec.exclusive = [])
    (hcomplete : l.BoundedComplete spec) (has : ∀ a ∈ as, a < l.size) :
    (∃ r, l.joinAll as = .ok r) ↔ ∃ u, ∀ a ∈ as, l.Below spec a u := by
  cases as with
  | nil => exact ⟨fun _ => ⟨0, fun a ha => absurd ha List.not_mem_nil⟩, fun _ => ⟨none, rfl⟩⟩
  | cons a as =>
    constructor
    · rintro ⟨r, hr⟩
      obtain ⟨c, -, hc⟩ := exists_bound_of_joinAll h has (List.cons_ne_nil a as) hr
      exact ⟨c, hc.above⟩
    · rintro ⟨u, hu⟩
      obtain ⟨ha, has⟩ := List.forall_mem_cons.1 hu
      obtain ⟨c, hc⟩ := exists_foldlM_of_below h hfree hcomplete ha has
      exact ⟨some c, joinAll_cons_eq_ok.2 ⟨c, rfl, hc⟩⟩

theorem joinAll_of_mem_iff (h : build names spec = .ok l) (hfree : spec.exclusive = [])
    (hcomplete : l.BoundedComplete spec) (has : ∀ a ∈ as, a < l.size)
    (hmem : ∀ a, a ∈ as ↔ a ∈ bs) {r : Option Level} (hr : l.joinAll as = .ok r) :
    l.joinAll bs = .ok r := by
  have hbs : ∀ b ∈ bs, b < l.size := fun b hb => has b ((hmem b).2 hb)
  obtain ⟨u, hu⟩ := (exists_joinAll_iff h hfree hcomplete has).1 ⟨r, hr⟩
  obtain ⟨s, hs⟩ := (exists_joinAll_iff h hfree hcomplete hbs).2
    ⟨u, fun b hb => hu b ((hmem b).2 hb)⟩
  rw [hs, joinAll_eq_of_mem_iff h has hmem hr hs]

end Complete

/--
Where the join of a list of levels succeeds it is their least upper bound, so it depends neither on
the order in which they are listed nor on how often. If no levels are exclusive, and any two below a
common one have a bound, it succeeds exactly on the lists that have a level above all their entries
(the empty list, whose join is no level, among them), and so in one order as in any other.
-/
theorem joinAll_least (h : build names spec = .ok l) :
    (∀ as r, (∀ a ∈ as, a < l.size) → as ≠ [] → l.joinAll as = .ok r →
      ∃ c, r = some c ∧ l.IsBound spec as c) ∧
    (∀ as bs r s, (∀ a ∈ as, a < l.size) → (∀ a, a ∈ as ↔ a ∈ bs) →
      l.joinAll as = .ok r → l.joinAll bs = .ok s → r = s) ∧
    (spec.exclusive = [] → l.BoundedComplete spec →
      (∀ as, (∀ a ∈ as, a < l.size) →
        ((∃ r, l.joinAll as = .ok r) ↔ ∃ u, ∀ a ∈ as, l.Below spec a u)) ∧
      ∀ as bs r, (∀ a ∈ as, a < l.size) → (∀ a, a ∈ as ↔ a ∈ bs) →
        (l.joinAll as = .ok r ↔ l.joinAll bs = .ok r)) := by
  refine ⟨fun as r has hne hr => exists_bound_of_joinAll h has hne hr,
    fun as bs r s has hmem hr hs => joinAll_eq_of_mem_iff h has hmem hr hs,
    fun hfree hcomplete => ⟨fun as has => exists_joinAll_iff h hfree hcomplete has,
      fun as bs r has hmem => ⟨fun hr => ?_, fun hr => ?_⟩⟩⟩
  · exact joinAll_of_mem_iff h hfree hcomplete has hmem hr
  · have hbs : ∀ b ∈ bs, b < l.size := fun b hb => has b ((hmem b).2 hb)
    exact joinAll_of_mem_iff h hfree hcomplete hbs (fun a => (hmem a).symm) hr

/-- All pairs have a bound in the diamond, so a list joins as any other list of its levels does. -/
theorem joinAll_least_diamond : ∃ l, build [] (diamond []) = .ok l ∧
    l.BoundedComplete (diamond []) ∧ l.joinAll [3, 0, 1, 0] = .ok (some 2) ∧
    l.IsBound (diamond []) [3, 0, 1, 0] 2 := by
  have hrun : (build [] (diamond [])).toOption.any (fun l => l.size == 4 &&
      decide (∀ a < l.size, ∀ b < l.size, (l.join? a b).isSome) &&
      (l.joinAll [0, 1, 3]).toOption.any (· == some 2)) = true := by
    decide +kernel
  obtain ⟨l, hl, hcheck⟩ := exists_ok_of_any hrun
  simp only [Bool.and_eq_true, decide_eq_true_eq, beq_iff_eq] at hcheck
  obtain ⟨⟨hsize, hjoins⟩, hthree⟩ := hcheck
  have hcomplete : l.BoundedComplete (diamond []) := by
    intro a b u ha hb
    obtain ⟨c, hc⟩ := Option.isSome_iff_exists.1 (hjoins a ha.1 b hb.1)
    exact ⟨c, ((join?_eq_some_iff hl).1 hc).2⟩
  obtain ⟨hbound, -, hrelisted⟩ := joinAll_least hl
  obtain ⟨r, hr, hthree⟩ := exists_ok_of_any hthree
  cases eq_of_beq hthree
  have hlevels : ∀ a ∈ [0, 1, 3], a < l.size := by
    rw [hsize]
    decide
  have hfour : l.joinAll [3, 0, 1, 0] = .ok (some 2) :=
    ((hrelisted rfl hcomplete).2 [0, 1, 3] _ _ hlevels (by simp; tauto)).1 hr
  obtain ⟨c, hc, hleast⟩ := hbound [3, 0, 1, 0] _ (by rw [hsize]; decide) (by decide) hfour
  cases hc
  exact ⟨l, hl, hcomplete, hfour, hleast⟩

end Lists

end Lattice

end Enclave
