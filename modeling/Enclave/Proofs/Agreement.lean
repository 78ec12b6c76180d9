import Enclave.Proofs.Covering

/-!
# Enclave.Proofs.Agreement

What solutions of two graphs have in common, if one covers the other. The levels known of a node
depend on the order in which they arrive, since a join of some of them becomes a level of its own.
They still agree up to what lies below the greatest, if what a function takes as an argument does
not depend on the order (`Solution.Under`), and where a join is always one of the levels joined they
agree altogether.

* `OrderFree` collects the conditions under which no order of arrival can bring about a witness that
  another does not.
* `isConsistent_of_covers`: then a graph that covers another has a witness if the other has one.
* `level?_eq_of_mirrors`: where each mirrors the other, the levels assigned agree.
-/

namespace Enclave

namespace Lattice

/-- Two levels below a common one may be given to one element. -/
def BoundedJoins (l : Lattice) : Prop :=
  ∀ a < l.size, ∀ b < l.size, ∀ c < l.size, l.dominatedBy a c = true → l.dominatedBy b c = true →
    l.compatible a b = true

/-- With a level, the set lists every level below it. -/
def DownClosed (l : Lattice) (set : SortedSet Level) : Prop :=
  ∀ b ∈ set.toList, ∀ a < l.size, l.dominatedBy a b = true → a ∈ set.toList

def JoinClosed (l : Lattice) (set : SortedSet Level) : Prop :=
  ∀ a ∈ set.toList, ∀ b ∈ set.toList, ∀ c ∈ l.join? a b, c ∈ set.toList

instance (l : Lattice) : Decidable l.BoundedJoins :=
  inferInstanceAs (Decidable (∀ a < l.size, ∀ b < l.size, ∀ c < l.size,
    l.dominatedBy a c = true → l.dominatedBy b c = true → l.compatible a b = true))

instance (l : Lattice) : DecidablePred l.DownClosed := fun set =>
  inferInstanceAs (Decidable (∀ b ∈ set.toList, ∀ a < l.size,
    l.dominatedBy a b = true → a ∈ set.toList))

instance (l : Lattice) : DecidablePred l.JoinClosed := fun set =>
  inferInstanceAs (Decidable (∀ a ∈ set.toList, ∀ b ∈ set.toList, ∀ c ∈ l.join? a b,
    c ∈ set.toList))

theorem BoundedJoins.compatible {l : Lattice} {a b c : Level} (hb : l.BoundedJoins)
    (hl : l.Lawful) (hac : l.dominatedBy a c = true) (hbc : l.dominatedBy b c = true) :
    l.compatible a b = true :=
  hb a (hl.bounded a c hac).1 b (hl.bounded b c hbc).1 c (hl.bounded a c hac).2 hac hbc

theorem DownClosed.mem {l : Lattice} {set : SortedSet Level} {a b : Level} (hd : l.DownClosed set)
    (hl : l.Lawful) (hab : l.dominatedBy a b = true) (hb : b ∈ set.toList) : a ∈ set.toList :=
  hd b hb a (hl.bounded a b hab).1 hab

end Lattice

namespace Graph

/-- Every argument taint of the graph is such a set. -/
def ArgumentTaints (g : Graph) (P : SortedSet Level → Prop) : Prop :=
  ∀ n ∈ g.nodes.toList, ∀ t ∈ n.taint?, ∀ set ∈ t.arguments, P set

/-- Every code taint of the graph is such a set. -/
def CodeTaints (g : Graph) (P : SortedSet Level → Prop) : Prop :=
  ∀ n ∈ g.nodes.toList, ∀ set ∈ n.code?, P set

instance (g : Graph) (P : SortedSet Level → Prop) [DecidablePred P] :
    Decidable (g.ArgumentTaints P) :=
  inferInstanceAs (Decidable (∀ n ∈ g.nodes.toList, ∀ t ∈ n.taint?, ∀ set ∈ t.arguments, P set))

instance (g : Graph) (P : SortedSet Level → Prop) [DecidablePred P] : Decidable (g.CodeTaints P) :=
  inferInstanceAs (Decidable (∀ n ∈ g.nodes.toList, ∀ set ∈ n.code?, P set))

theorem ArgumentTaints.of_admits {g : Graph} {P : SortedSet Level → Prop} {e : Edge} {a : Level}
    (hP : g.ArgumentTaints P) (h : g.Admits e a) : ∃ set, P set ∧ a ∈ set.toList ∧
      ∀ b ∈ set.toList, g.Admits e b := by
  obtain ⟨hkinds, t, args, ht, hargs, ha⟩ := h
  obtain ⟨n, hn, htaint⟩ := Option.bind_eq_some_iff.1 ht
  have hmem := Array.mem_toList_iff.2 (Array.mem_of_getElem? hn)
  exact ⟨args, hP n hmem t htaint args hargs, ha, fun b hb => ⟨hkinds, t, args, ht, hargs, hb⟩⟩

theorem CodeTaints.of_code? {g : Graph} {P : SortedSet Level → Prop} {v : NodeId}
    {code : SortedSet Level} (hP : g.CodeTaints P) (h : g.nodes[v]?.bind (·.code?) = some code) :
    P code := by
  obtain ⟨n, hn, hcode⟩ := Option.bind_eq_some_iff.1 h
  exact hP n (Array.mem_toList_iff.2 (Array.mem_of_getElem? hn)) code hcode

theorem ArgumentTaints.of_twins {g h : Graph} {P : SortedSet Level → Prop}
    (hP : g.ArgumentTaints P) (htwins : ∀ w < h.nodes.size, ∃ v, g.Twin h v w) :
    h.ArgumentTaints P := by
  intro n hn t ht set hset
  obtain ⟨w, hw⟩ := Array.mem_iff_getElem?.1 (Array.mem_toList_iff.1 hn)
  obtain ⟨v, m, n', hm, hn', -, -, hlabel⟩ := htwins w (lt_size hw)
  cases hw.symm.trans hn'
  refine hP m (Array.mem_toList_iff.2 (Array.mem_of_getElem? hm)) t ?_ set hset
  rw [Node.taint?, hlabel]
  exact ht

theorem CodeTaints.of_twins {g h : Graph} {P : SortedSet Level → Prop} (hP : g.CodeTaints P)
    (htwins : ∀ w < h.nodes.size, ∃ v, g.Twin h v w) : h.CodeTaints P := by
  intro n hn set hset
  obtain ⟨w, hw⟩ := Array.mem_iff_getElem?.1 (Array.mem_toList_iff.1 hn)
  obtain ⟨v, m, n', hm, hn', -, -, hlabel⟩ := htwins w (lt_size hw)
  cases hw.symm.trans hn'
  refine hP m (Array.mem_toList_iff.2 (Array.mem_of_getElem? hm)) set ?_
  rw [Node.code?, Node.taint?, hlabel]
  exact hset

end Graph

/--
No order of arrival brings about a witness that another does not: a join is always one of the levels
joined; or levels below a common one are compatible, and taints do not tell apart the joins that
different orders make.
-/
def OrderFree (l : Lattice) (g : Graph) : Prop :=
  l.Selective ∨ (l.BoundedJoins ∧
    ((g.ArgumentTaints (fun _ => False) ∧ g.CodeTaints l.JoinClosed) ∨
      (g.ArgumentTaints l.DownClosed ∧ g.CodeTaints l.DownClosed)))

instance (l : Lattice) (g : Graph) : Decidable (OrderFree l g) :=
  inferInstanceAs (Decidable (_ ∨ (_ ∧ ((_ ∧ _) ∨ (_ ∧ _)))))

theorem OrderFree.of_twins {l : Lattice} {g h : Graph} (hfree : OrderFree l g)
    (htwins : ∀ w < h.nodes.size, ∃ v, g.Twin h v w) : OrderFree l h := by
  refine hfree.imp id (And.imp id (Or.imp ?_ ?_)) <;>
    exact And.imp (·.of_twins htwins) (·.of_twins htwins)

theorem OrderFree.of_mirrors {l : Lattice} {g h : Graph} (hfree : OrderFree l g)
    (hmirrors : g.Mirrors h) : OrderFree l h :=
  hfree.of_twins hmirrors.node

def Solution.Under (s : Solution) (l : Lattice) (v : NodeId) (a : Level) : Prop :=
  ∃ t, s.Holds v t ∧ l.dominatedBy a t = true

/-- The levels that joins make out of some. -/
inductive Joined (l : Lattice) (S : Level → Prop) : Level → Prop
  | base {a : Level} : S a → Joined l S a
  | join {a b c : Level} : Joined l S a → Joined l S b → l.join? a b = some c → Joined l S c

theorem Joined.mono {l : Lattice} {S T : Level → Prop} {a : Level} (h : Joined l S a)
    (hST : ∀ a, S a → T a) : Joined l T a := by
  induction h with
  | base ha => exact .base (hST _ ha)
  | join _ _ hjoin iha ihb => exact .join iha ihb hjoin

theorem Joined.le {l : Lattice} {S : Level → Prop} {a m : Level} (hl : l.Lawful)
    (hm : ∀ a, S a → l.dominatedBy a m = true) (hj : Joined l S a) :
    l.dominatedBy a m = true := by
  induction hj with
  | base ha => exact hm _ ha
  | join _ _ hjoin iha ihb => exact Lattice.join_le hl hjoin iha ihb

theorem Joined.mem {l : Lattice} {S : Level → Prop} {a : Level} {set : SortedSet Level}
    (hset : l.JoinClosed set) (hS : ∀ a, S a → a ∈ set.toList) (hj : Joined l S a) :
    a ∈ set.toList := by
  induction hj with
  | base ha => exact hS _ ha
  | join _ _ hjoin iha ihb => exact hset _ iha _ ihb _ hjoin

namespace Spread

variable {g h : Graph} {l : Lattice} {s s' : Solution} {v w : NodeId} {a b : Level}

theorem Solved.of_covers {P : NodeId → Level → Prop} {members : List NodeId} (hc : g.Covers h)
    (hs' : Solved h l members s') (hP : g.Bounds l P) (ha : s'.Holds w a) :
    ∃ v, g.Twin h v w ∧ P v a :=
  hs'.holds_within (hP.transport hc) ha

theorem Solved.bounds_under (hl : l.Lawful) (hcl : g.Closed)
    (hs : Solved g l g.components.flatten s) (hcons : s.isConsistent = true)
    (hdown : g.ArgumentTaints l.DownClosed) : g.Bounds l (s.Under l) := by
  have hkeeps := hs.keeps hcl
  have hunder : ∀ {v a}, s.Holds v a → s.Under l v a := fun ha =>
    ⟨_, ha, hl.refl _ (hs.lt _ _ ha)⟩
  refine ⟨⟨fun v a ha => hunder (hkeeps.seed v a ha), fun e he hpure a hret hadm =>
    hunder (hkeeps.sent e he hpure a hret hadm), fun e he hown a hu hadm => ?_⟩,
    fun v t a b ht ha hjoin => ?_⟩
  · obtain ⟨t, ht, hat⟩ := hu
    refine ⟨t, hkeeps.onward e he hown t ht fun hadmits => ?_, hat⟩
    -- a function that takes the greater level takes the smaller one too
    obtain ⟨set, hset, hmem, hall⟩ := hdown.of_admits hadmits
    exact hadm (hall a (hset.mem hl hat hmem))
  · obtain ⟨x, hx, htx⟩ := ht
    obtain ⟨y, hy, hay⟩ := ha
    obtain ⟨m, -, hm, hgreatest⟩ := hs.exists_greatest hcons ⟨x, hx⟩
    exact ⟨m, hm, Lattice.join_le hl hjoin (hl.trans t x m htx (hgreatest x hx))
      (hl.trans a y m hay (hgreatest y hy))⟩

theorem Solved.bounds_joined (hcl : g.Closed) (hs : Solved g l g.components.flatten s)
    (hnone : g.ArgumentTaints fun _ => False) :
    g.Bounds l fun v a => Joined l (s.Holds v) a := by
  have hkeeps := hs.keeps hcl
  refine ⟨⟨fun v a ha => .base (hkeeps.seed v a ha), fun e he hpure a hret hadm =>
    .base (hkeeps.sent e he hpure a hret hadm), fun e he hown a hu _ => ?_⟩,
    fun v t a b ht ha hjoin => .join ht ha hjoin⟩
  refine hu.mono fun x hx => hkeeps.onward e he hown x hx fun hadmits => ?_
  obtain ⟨set, hfalse, -⟩ := hnone.of_admits hadmits
  exact hfalse

theorem Solved.holds_of_selective (hl : l.Lawful) (hsel : l.Selective) (hcl : g.Closed)
    (hc : g.Covers h) (hs : Solved g l g.components.flatten s)
    (hs' : Solved h l h.components.flatten s') (ha : s'.Holds w a) :
    ∃ v, g.Twin h v w ∧ s.Holds v a := by
  obtain ⟨v, hv, hderived⟩ := hs'.of_covers hc (bounds_derived hl hsel) ha
  exact ⟨v, hv, hs.holds_of_derived hcl hderived⟩

theorem Solved.under_of_covers (hl : l.Lawful) (hcl : g.Closed) (hc : g.Covers h)
    (hs : Solved g l g.components.flatten s) (hs' : Solved h l h.components.flatten s')
    (hcons : s.isConsistent = true) (hfree : l.Selective ∨ g.ArgumentTaints l.DownClosed)
    (ha : s'.Holds w a) : ∃ v, g.Twin h v w ∧ s.Under l v a := by
  rcases hfree with hsel | hdown
  · obtain ⟨v, hv, hholds⟩ := hs.holds_of_selective hl hsel hcl hc hs' ha
    exact ⟨v, hv, a, hholds, hl.refl a (hs.lt v a hholds)⟩
  · exact hs'.of_covers hc (hs.bounds_under hl hcl hcons hdown) ha

/--
Levels that lie below the greatest known of a twin, and in its code taint, bring about no witness
where levels below a common one are compatible.
-/
theorem Solved.isConsistent_of_bounded {P : NodeId → Level → Prop} (hl : l.Lawful)
    (hbounded : l.BoundedJoins) (hc : g.Covers h) (hs' : Solved h l h.components.flatten s')
    (hP : ∀ w a, s'.Holds w a → ∃ v, g.Twin h v w ∧ P v a)
    (hle : ∀ v a b, P v a → P v b →
      ∃ m, l.dominatedBy a m = true ∧ l.dominatedBy b m = true)
    (hcode : ∀ v a code, P v a → g.nodes[v]?.bind (·.code?) = some code → a ∈ code.toList) :
    s'.isConsistent = true := by
  have hpairs : ∀ w a b, s'.Holds w a → s'.Holds w b → l.compatible a b = true := by
    intro w a b ha hb
    obtain ⟨u, hu, hPa⟩ := hP w a ha
    obtain ⟨v, hv, hPb⟩ := hP w b hb
    cases hc.unique u v w hu hv
    obtain ⟨m, ham, hbm⟩ := hle u a b hPa hPb
    exact hbounded.compatible hl ham hbm
  refine hs'.isConsistent_of (fun w a b ha hb _ => hpairs w a b ha hb) (fun w htorn => ?_)
    fun w code a hw ha => ?_
  · obtain ⟨a, b, ha, hb, hjoin, -⟩ := htorn
    have := hpairs w a b ha hb
    rw [Lattice.compatible, hjoin] at this
    cases this
  · obtain ⟨v, hv, hPa⟩ := hP w a ha
    exact hcode v a code hPa (hv.code?.trans hw)

/-- Without witnesses in a graph there are none in a graph that it covers. -/
theorem Solved.isConsistent_of_covers (hl : l.Lawful) (hcl : g.Closed) (hc : g.Covers h)
    (hs : Solved g l g.components.flatten s) (hs' : Solved h l h.components.flatten s')
    (hfree : OrderFree l g) (hcons : s.isConsistent = true) : s'.isConsistent = true := by
  -- the three conditions, by what is known of a twin: the same levels, joins of them, lower ones
  rcases hfree with hsel | ⟨hbounded, ⟨hnone, hjoins⟩ | ⟨hargs, hcodes⟩⟩
  · have hfacts : ∀ w a, s'.Holds w a → ∃ v, g.Twin h v w ∧ s.Holds v a := fun w a =>
      hs.holds_of_selective hl hsel hcl hc hs'
    have hpairs : ∀ w a b, s'.Holds w a → s'.Holds w b → a ≠ b → l.compatible a b = true := by
      intro w a b ha hb hne
      obtain ⟨u, hu, ha⟩ := hfacts w a ha
      obtain ⟨v, hv, hb⟩ := hfacts w b hb
      cases hc.unique u v w hu hv
      exact hs.compatible hcons ha hb hne
    refine hs'.isConsistent_of hpairs (fun w => not_torn_of_selective hl hsel (hpairs w))
      fun w code a hcode ha => ?_
    obtain ⟨v, hv, ha⟩ := hfacts w a ha
    exact hs.mem_code hcons (hv.code?.trans hcode) ha
  · refine hs'.isConsistent_of_bounded hl hbounded hc (P := fun v a => Joined l (s.Holds v) a)
      (fun w a => hs'.of_covers hc (hs.bounds_joined hcl hnone)) (fun v a b ha hb => ?_)
      fun v a code ha hcode => ?_
    · have hreached : s.Reached v := by
        induction ha with
        | base ha => exact ⟨_, ha⟩
        | join _ _ _ iha _ => exact iha
      obtain ⟨m, -, -, hgreatest⟩ := hs.exists_greatest hcons hreached
      exact ⟨m, Joined.le hl hgreatest ha, Joined.le hl hgreatest hb⟩
    · exact Joined.mem (hjoins.of_code? hcode) (fun x => hs.mem_code hcons hcode) ha
  · refine hs'.isConsistent_of_bounded hl hbounded hc (P := fun v a => s.Under l v a)
      (fun w a => hs'.of_covers hc (hs.bounds_under hl hcl hcons hargs))
      (fun v a b ha hb => ?_) fun v a code ha hcode => ?_
    · obtain ⟨x, hx, hax⟩ := ha
      obtain ⟨y, hy, hby⟩ := hb
      obtain ⟨m, -, -, hgreatest⟩ := hs.exists_greatest hcons ⟨x, hx⟩
      exact ⟨m, hl.trans a x m hax (hgreatest x hx), hl.trans b y m hby (hgreatest y hy)⟩
    · obtain ⟨t, ht, hat⟩ := ha
      exact (hcodes.of_code? hcode).mem hl hat (hs.mem_code hcons hcode ht)

theorem Solved.level?_eq_of_mirrors {A A' : Assignment} (hl : l.Lawful) (hcl : g.Closed)
    (hcl' : h.Closed) (hgh : g.Mirrors h) (hhg : h.Mirrors g)
    (hs : Solved g l g.components.flatten s) (hs' : Solved h l h.components.flatten s')
    (hcons : s.isConsistent = true) (hcons' : s'.isConsistent = true)
    (hfree : l.Selective ∨ g.ArgumentTaints l.DownClosed)
    (hA : Assignment.ofSolution g l s = .ok A) (hA' : Assignment.ofSolution h l s' = .ok A')
    (hvw : g.Twin h v w) : A.level? v = A'.level? w := by
  have hunder : ∀ a, s'.Holds w a → s.Under l v a := by
    intro a ha
    obtain ⟨u, hu, hunder⟩ := hs.under_of_covers hl hcl hgh.covers hs' hcons hfree ha
    cases hgh.unique u v w hu hvw
    exact hunder
  have hunder' : ∀ a, s.Holds v a → s'.Under l w a := by
    intro a ha
    obtain ⟨u, hu, hunder⟩ := hs'.under_of_covers hl hcl' hhg.covers hs hcons'
      (hfree.imp id (·.of_twins hgh.node)) ha
    cases hhg.unique u w v hu hvw.symm
    exact hunder
  by_cases hreached : s.Reached v
  · obtain ⟨m, hstate, hm, hgreatest⟩ := hs.exists_greatest hcons hreached
    obtain ⟨x, hx, hmx⟩ := hunder' m hm
    obtain ⟨m', hstate', hm', hgreatest'⟩ := hs'.exists_greatest hcons' ⟨x, hx⟩
    obtain ⟨y, hy, hmy⟩ := hunder m' hm'
    -- each of the two greatest levels is below the other
    have hmm' : m = m' := hl.antisymm m m' (hl.trans m x m' hmx (hgreatest' x hx))
      (hl.trans m' y m hmy (hgreatest y hy))
    rw [Assignment.level?_of_state hA hvw.lt.1 hstate,
      Assignment.level?_of_state hA' hvw.lt.2 hstate', hmm']
  · have hreached' : ¬ s'.Reached w := by
      rintro ⟨a, ha⟩
      obtain ⟨t, ht, -⟩ := hunder a ha
      exact hreached ⟨t, ht⟩
    rw [Assignment.level?_of_unreached hs hA hvw.lt.1 hreached,
      Assignment.level?_of_unreached hs' hA' hvw.lt.2 hreached']

end Spread

end Enclave
