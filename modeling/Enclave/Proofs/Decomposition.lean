import Enclave.Proofs.Merging
import Enclave.Proofs.Preparing
import Enclave.Proofs.Solving

/-!
# Enclave.Proofs.Decomposition

A graph is solved component by component, and nothing is lost by it: one run over all nodes knows
the same of every node, carries the same levels along the same edges, finds the same witnesses and
takes the same number of steps. The components are taken off one by one; what is left is again a set
of nodes that no edge leaves.

* `run_coincides`: the induction, over any division into parts that no edge joins.
* `components_coincide`: the components of a graph, on any budget.
-/

namespace Enclave

attribute [local instance] lexOrd

namespace Solution

variable {s t u : Solution}

/-- Two solutions say the same; only the order of their witnesses may differ. -/
structure Same (s t : Solution) : Prop where
  facts : s.facts = t.facts
  carried : s.carried = t.carried
  witnesses : s.witnesses.Perm t.witnesses

theorem Same.refl (s : Solution) : s.Same s := ⟨rfl, rfl, .refl _⟩

theorem Same.trans (h : s.Same t) (h' : t.Same u) : s.Same u :=
  ⟨h.facts.trans h'.facts, h.carried.trans h'.carried, h.witnesses.trans h'.witnesses⟩

theorem Same.absorb (h : t.Same u) : (s.absorb t).Same (s.absorb u) where
  facts := by simp only [Solution.absorb, h.facts]
  carried := by simp only [Solution.absorb, h.carried]
  witnesses := h.witnesses.append_left s.witnesses

end Solution

theorem Flow.Joint.same {A B : NodeId → Prop} {s t u : Flow} (h : Joint A B s t u) :
    u.solution.Same (s.solution.absorb t.solution) where
  facts := by
    refine SortedMap.ext_get? fun v => ?_
    rw [Solution.get?_absorb]
    exact (h.facts.symm h.apart).either v
  carried := by
    refine SortedSet.ext_mem fun p => ?_
    rw [Solution.absorb, SortedSet.mem_union]
    exact h.carried p
  witnesses := h.witnesses.values_perm fun k => h.apart k.1

namespace Spread

variable {g : Graph} {l : Lattice} {members : List NodeId} {b : Budget}

/-- The two succeed on the same terms: with what says the same, and with as much left. -/
structure Coincide (x y : Except SolveError (Solution × Budget)) : Prop where
  left : ∀ s b, x = .ok (s, b) → ∃ t, y = .ok (t, b) ∧ s.Same t
  right : ∀ t b, y = .ok (t, b) → ∃ s, x = .ok (s, b) ∧ s.Same t

theorem runAll_cons_eq_ok {p : List NodeId} {parts : List (List NodeId)} {u : Solution}
    {b' : Budget} : runAll g l b (p :: parts) = .ok (u, b') ↔
      ∃ s b₁ t, run g l p b = .ok (s, b₁) ∧ runAll g l b₁ parts = .ok (t, b') ∧
        u = s.absorb t := by
  rw [runAll]
  constructor
  · intro h
    obtain ⟨⟨s, b₁⟩, hs, h⟩ := bind_eq_ok.1 h
    obtain ⟨⟨t, b₂⟩, ht, h⟩ := bind_eq_ok.1 h
    cases h
    exact ⟨s, b₁, t, hs, ht, rfl⟩
  · rintro ⟨s, b₁, t, hs, ht, rfl⟩
    rw [hs]
    show (runAll g l b₁ parts >>= _) = _
    rw [ht]
    rfl

/-- A run over two parts that no edge joins is a run over the one and a run over the other. -/
theorem run_filter_eq_ok (members : List NodeId) {q : NodeId → Bool}
    (hq : ∀ e ∈ g.edges.toList, q e.source = q e.target) (hb : b.used ≤ b.cap) :
    (∀ u b', run g l members b = .ok (u, b') → ∃ s b₁ t,
      run g l (members.filter q) b = .ok (s, b₁) ∧
      run g l (members.filter (!q ·)) b₁ = .ok (t, b') ∧ u.Same (s.absorb t)) ∧
    ∀ s b₁ t b', run g l (members.filter q) b = .ok (s, b₁) →
      run g l (members.filter (!q ·)) b₁ = .ok (t, b') →
      ∃ u, run g l members b = .ok (u, b') ∧ u.Same (s.absorb t) := by
  constructor
  · intro u b' h
    obtain ⟨n, fu, hu, hpay, rfl⟩ := (run_eq_ok hb).1 h
    obtain ⟨n₁, n₂, fs, ft, hs, ht, rfl, hj⟩ := runCourse_split hq hu
    rw [Budget.pay_add] at hpay
    obtain ⟨b₁, hpay₁, hpay₂⟩ := bind_eq_ok.1 hpay
    exact ⟨fs.solution, b₁, ft.solution, (run_eq_ok hb).2 ⟨n₁, fs, hs, hpay₁, rfl⟩,
      (run_eq_ok (Budget.fits_of_pay hpay₁)).2 ⟨n₂, ft, ht, hpay₂, rfl⟩, hj.same⟩
  · intro s b₁ t b' hs ht
    obtain ⟨n₁, fs, hfs, hpay₁, rfl⟩ := (run_eq_ok hb).1 hs
    obtain ⟨n₂, ft, hft, hpay₂, rfl⟩ := (run_eq_ok (Budget.fits_of_pay hpay₁)).1 ht
    obtain ⟨fu, hu, hj⟩ := runCourse_join hq hfs hft
    refine ⟨fu.solution, (run_eq_ok hb).2 ⟨n₁ + n₂, fu, hu, ?_, rfl⟩, hj.same⟩
    rw [Budget.pay_add, hpay₁]
    exact hpay₂

/-- A run over nodes that fall into parts is the runs over the parts, one after another. -/
theorem run_coincides {parts : List (List NodeId)}
    (hparts : ∀ p ∈ parts, members.filter (p.contains ·) = p)
    (hcover : ∀ v ∈ members, ∃ p ∈ parts, v ∈ p) (hdisj : parts.Pairwise List.Disjoint)
    (hedge : ∀ p ∈ parts, ∀ e ∈ g.edges.toList, e.source ∈ p ↔ e.target ∈ p)
    (hb : b.used ≤ b.cap) : Coincide (run g l members b) (runAll g l b parts) := by
  induction parts generalizing members b with
  | nil =>
    have hnil : members = [] := List.eq_nil_iff_forall_not_mem.2 fun v hv => by
      obtain ⟨p, hp, -⟩ := hcover v hv
      cases hp
    subst hnil
    refine ⟨fun s b' h => ?_, fun t b' h => ?_⟩
    · cases h
      exact ⟨{}, rfl, .refl _⟩
    · cases h
      exact ⟨{}, rfl, .refl _⟩
  | cons p parts ih =>
    obtain ⟨hp, hdisj⟩ := List.pairwise_cons.1 hdisj
    have hq : ∀ e ∈ g.edges.toList, p.contains e.source = p.contains e.target := by
      intro e he
      rw [Bool.eq_iff_iff, List.contains_iff_mem, List.contains_iff_mem]
      exact hedge p List.mem_cons_self e he
    have hfirst : members.filter (p.contains ·) = p := hparts p List.mem_cons_self
    -- the parts that are left are those of the nodes that are left
    have hrest : ∀ b : Budget, b.used ≤ b.cap →
        Coincide (run g l (members.filter (!p.contains ·)) b) (runAll g l b parts) := by
      intro b hb
      refine ih (fun q hq => ?_) (fun v hv => ?_) hdisj
        (fun q hq => hedge q (List.mem_cons_of_mem p hq)) hb
      · rw [List.filter_filter]
        refine Eq.trans (List.filter_congr fun v _ => ?_) (hparts q (List.mem_cons_of_mem p hq))
        by_cases hv : v ∈ q
        · have hvp : v ∉ p := fun h => hp q hq h hv
          simp [hv, hvp]
        · simp [hv]
      · obtain ⟨hv, hvp⟩ := List.mem_filter.1 hv
        obtain ⟨q, hq, hvq⟩ := hcover v hv
        rcases List.mem_cons.1 hq with rfl | hq
        · simp [hvq] at hvp
        · exact ⟨q, hq, hvq⟩
    obtain ⟨hsplit, hjoin⟩ := run_filter_eq_ok (l := l) members hq hb
    rw [hfirst] at hsplit hjoin
    have hfits : ∀ {s b₁}, run g l p b = .ok (s, b₁) → b₁.used ≤ b₁.cap := by
      intro s b₁ hs
      obtain ⟨n, f, -, hpay, -⟩ := (run_eq_ok hb).1 hs
      exact Budget.fits_of_pay hpay
    refine ⟨fun u b' hu => ?_, fun u b' hu => ?_⟩
    · obtain ⟨s, b₁, t, hs, ht, hsame⟩ := hsplit u b' hu
      obtain ⟨t', ht', hsame'⟩ := (hrest b₁ (hfits hs)).left t b' ht
      exact ⟨s.absorb t', runAll_cons_eq_ok.2 ⟨s, b₁, t', hs, ht', rfl⟩, hsame.trans hsame'.absorb⟩
    · obtain ⟨s, b₁, t', hs, ht', rfl⟩ := runAll_cons_eq_ok.1 hu
      obtain ⟨t, ht, hsame'⟩ := (hrest b₁ (hfits hs)).right t' b' ht'
      obtain ⟨u, hu, hsame⟩ := hjoin s b₁ t b' hs ht
      exact ⟨u, hu, hsame.trans hsame'.absorb⟩

end Spread

namespace Graph

variable {g : Graph} {l : Lattice}

theorem filter_nodeIds (hg : g.Closed) {p : List NodeId} (hp : p ∈ g.components) :
    g.nodeIds.filter (p.contains ·) = p := by
  have hall : (g.nodeIds.filter (p.contains ·)).Pairwise (· < ·) :=
    List.pairwise_lt_range.filter _
  refine eq_of_pairwise_of_mem (fun _ _ => Nat.lt_asymm) hall (ascending_of_mem_components hg hp) ?_
  intro v
  rw [List.mem_filter, List.contains_iff_mem]
  exact ⟨fun hv => hv.2, fun hv => ⟨List.mem_range.2 (lt_of_mem_components hg hp hv), hv⟩⟩

theorem components_coincide (hg : g.Closed) (cap : Nat) :
    Spread.Coincide (Spread.run g l g.nodeIds { cap }) (Spread.runAll g l { cap } g.components) :=
  Spread.run_coincides (fun _ => filter_nodeIds hg)
    (fun _ hv => exists_component hg (List.mem_range.1 hv)) (disjoint_components hg)
    (fun _ hp _ => edge_within_component hg hp) (Nat.zero_le _)

theorem exists_runAll (hl : l.Lawful) (hg : g.Over l) (hcl : g.Closed) {cap : Nat}
    (hsmall : 2 * g.nodes.size < word32) (hcap : g.edges.size * l.size + g.seeded ≤ cap) :
    ∃ s b, Spread.runAll g l { cap } g.components = .ok (s, b) := by
  have hends : Ends _ (Spread.Fails g cap True) (Spread.runAll g l { cap } g.components) :=
    components_ends hl hg hcl fun _ => hcap
  cases hrun : Spread.runAll g l { cap } g.components with
  | ok r => exact ⟨r.1, r.2, rfl⟩
  | error e =>
    rw [hrun] at hends
    cases e with
    | resourceExhausted c => exact absurd trivial hends.2
    | noLevels n => exact hends.elim
    | overflow c => exact absurd hsmall (Nat.not_lt.2 hends)

/--
Solving a graph by components is exact. One run over all its nodes succeeds on the same budgets, in
the same number of steps, with the same facts, carried levels and witnesses; and a budget of every
level over every edge and every seed is one of them.
-/
theorem decomposition_exact (hcl : g.Closed) (cap : Nat) :
    Spread.Coincide (Spread.run g l g.nodeIds { cap })
        (Spread.runAll g l { cap } g.components) ∧
      (∀ settings : SolverSettings,
        settings.stepCap g.nodes.size g.edges.size l.size = .ok cap →
        g.solve l settings = (Spread.runAll g l { cap } g.components).map (·.1)) ∧
      ∀ names spec, Lattice.build names spec = .ok l → g.Over l →
        2 * g.nodes.size < word32 → g.edges.size * l.size + g.seeded ≤ cap →
        ∃ s b, Spread.run g l g.nodeIds { cap } = .ok (s, b) := by
  have hcoincide : Spread.Coincide (Spread.run g l g.nodeIds { cap })
      (Spread.runAll g l { cap } g.components) := components_coincide hcl cap
  refine ⟨hcoincide, fun settings => solve_eq, fun names spec hl hg hsmall henough => ?_⟩
  obtain ⟨t, b, ht⟩ := exists_runAll (Lattice.build_lawful hl) hg hcl hsmall henough
  obtain ⟨s, hs, -⟩ := hcoincide.right t b ht
  exact ⟨s, b, hs⟩

/-- Three components whose nodes are numbered in turns, with a conflict in each of two. -/
def scattered : Program where
  labels := {
    functions := .ofList [
      ("alpha", { level := some "red" }),
      ("beta", { level := some "red" }),
      ("delta", { level := some "blue" }),
      ("gate", { taint := some { code := some ["blue", "top"] } })] }
  ir := {
    defUse := [⟨"alpha", "mixer", none⟩, ⟨"delta", "mixer", none⟩, ⟨"beta", "relay", none⟩,
      ⟨"relay", "gate", none⟩, ⟨"left", "right", none⟩, ⟨"mixer", "mixer", none⟩] }

def scatteredLevels : LatticeSpec where
  order := [("red", "top"), ("blue", "top")]
  exclusive := [("top", "top")]

theorem decomposition_exact_scattered : ∃ (l : Lattice) (g : Graph) (s t : Solution), g.Closed ∧
    g.components = [[0, 2, 4], [1, 3, 5], [6, 7]] ∧
    Spread.runAll g l { cap := 12 } g.components = .ok (t, ⟨12, 10⟩) ∧ t.witnesses.length = 2 ∧
    Spread.run g l g.nodeIds { cap := 12 } = .ok (s, ⟨12, 10⟩) ∧ s.Same t := by
  have hrun : (Analysis.prepare { lattice := scatteredLevels } scattered).toOption.any (fun r =>
      r.toOption.any fun p => p.graph.components = [[0, 2, 4], [1, 3, 5], [6, 7]] &&
        (Spread.runAll p.graph p.lattice { cap := 12 } p.graph.components).toOption.any fun r =>
          r.1.witnesses.length = 2 && r.2 = ⟨12, 10⟩) = true := by decide +kernel
  obtain ⟨r, hp, hr⟩ := exists_ok_of_any hrun
  obtain ⟨p, rfl, hcheck⟩ := exists_ok_of_any hr
  obtain ⟨hparts, hcheck⟩ := Bool.and_eq_true_iff.1 hcheck
  obtain ⟨⟨t, b⟩, ht, hcheck⟩ := exists_ok_of_any hcheck
  obtain ⟨hlength, hbudget⟩ := Bool.and_eq_true_iff.1 hcheck
  have hparts := of_decide_eq_true hparts
  have hbudget : b = ⟨12, 10⟩ := of_decide_eq_true hbudget
  subst hbudget
  have hvalid := Analysis.valid_of_prepare hp
  obtain ⟨s, hs, hsame⟩ := (decomposition_exact (l := p.lattice) hvalid.closed 12).1.right t _ ht
  exact ⟨p.lattice, p.graph, s, t, hvalid.closed, hparts, ht, of_decide_eq_true hlength, hs, hsame⟩

end Graph

end Enclave
