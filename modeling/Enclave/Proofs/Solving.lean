import Enclave.Proofs.Running
import Enclave.Propagation.Components
import Mathlib.Algebra.BigOperators.Group.Finset.Piecewise
import Mathlib.Algebra.BigOperators.Ring.Finset

/-!
# Enclave.Proofs.Solving

What a solution of a whole graph is. `Solved` says of a solution over some nodes that everything in
it has a reason and that nothing is missing from it; it holds of every run (`Solved.of_run`) and of
two solutions over parts that no edge joins (`Solved.absorb`), hence of the solution of the graph.

* `solve_ends`: solving gives such a solution, or fails because a number does not fit its word or
  because the budget is not enough.
* `sum_memberSteps`: each level over each edge and each seed once bounds the steps of all runs.
-/

namespace Enclave

attribute [local instance] lexOrd

namespace Solution

variable {s t : Solution} {v : NodeId}

theorem state_eq : s.state v = (s.factsOf v).state := by
  rw [state, factsOf]
  cases s.facts.get? v <;> rfl

theorem get?_absorb : (s.absorb t).facts.get? v = (t.facts.get? v).or (s.facts.get? v) :=
  SortedMap.get?_foldl_insert (SortedMap.nodup_keys _)

theorem factsOf_absorb_left (h : t.facts.get? v = none) :
    (s.absorb t).factsOf v = s.factsOf v := by
  rw [factsOf, get?_absorb, h, Option.none_or, factsOf]

theorem factsOf_absorb_right (h : s.facts.get? v = none) :
    (s.absorb t).factsOf v = t.factsOf v := by
  rw [factsOf, get?_absorb, h, Option.or_none, factsOf]

theorem isConsistent_absorb : (s.absorb t).isConsistent = false ↔
    s.isConsistent = false ∨ t.isConsistent = false := by
  simp only [isConsistent, absorb]
  cases s.witnesses <;> simp

end Solution

namespace Spread

open NodeFacts

variable {g : Graph} {l : Lattice} {members rest : List NodeId} {s t : Solution} {v : NodeId}
  {a : Level} {enough : Prop} {budget : Budget}

theorem isEmpty_toList (ws : WitnessSet) : ws.toList.isEmpty = ws.isEmpty := by
  rw [WitnessSet.toList, WitnessSet.isEmpty, SortedMap.isEmpty, SortedMap.values, List.isEmpty_map]

/-- A solution over some of the nodes of a graph: it is justified, and nothing is missing. -/
structure Solved (g : Graph) (l : Lattice) (members : List NodeId) (s : Solution) : Prop where
  within : ∀ v, v ∉ members → s.facts.get? v = none
  steady : ∀ v, (s.factsOf v).Steady l
  lt : ∀ v a, s.Holds v a → a < l.size
  evident : s.isConsistent = false ↔ ∃ v, (s.factsOf v).Troubled l g.nodes[v]?
  justified : ∀ J, Rules g l members (· ∈ s.carried.toList) J →
    ∀ v a o, (s.factsOf v).levels.get? a = some o → J v a o
  seeds : ∀ v ∈ members, ∀ a, g.nodes[v]?.bind (·.seed?) = some a → s.Holds v a
  returns : ∀ v ∈ members, ∀ a, g.nodes[v]?.bind (·.singleReturn?) = some a →
    ∀ e ∈ returnEdges g v, Delivered g s e a
  onward : ∀ v a, s.Holds v a → ∀ e ∈ onwardEdges g v, Delivered g s e a

theorem Solved.of_run {f : Flow} (hl : l.Lawful) (hg : g.Over l)
    (hin : ∀ e ∈ g.edges.toList, e.source ∈ members → e.target ∈ members)
    (hf : Reachable g l members f) (hdone : Finished g members f) :
    Solved g l members f.solution where
  within v hv := by
    refine Option.eq_none_iff_forall_ne_some.2 fun x hx => hv ?_
    exact hf.within hin v x hx
  steady := hf.steady hl hg
  lt v a := hf.lt hl hg
  evident := by
    rw [Solution.isConsistent, Flow.solution, isEmpty_toList]
    exact hf.evident hl hg
  justified J hJ := hf.justified hl hg hJ fun _ h => h
  seeds := hdone.seeds
  returns := hdone.returns
  onward := hdone.onward

theorem Rules.mono {C C' : EdgeId × Level → Prop} {J : NodeId → Level → Origin → Prop}
    (h : Rules g l members C J) (hrest : ∀ v ∈ rest, v ∈ members) (hC : ∀ p, C' p → C p) :
    Rules g l rest C' J where
  seed v a hv := h.seed v a (hrest v hv)
  sent u a e hu hr he hadm hc := h.sent u a e (hrest u hu) hr he hadm (hC _ hc)
  onward u a o e hJ he hadm hc := h.onward u a o e hJ he hadm (hC _ hc)
  raised := h.raised

theorem Solved.factsOf_eq_empty (hs : Solved g l members s) (hv : v ∉ members) :
    s.factsOf v = {} := by
  rw [Solution.factsOf, hs.within v hv, Option.getD_none]

theorem Solved.mem_of_holds (hs : Solved g l members s) (ha : s.Holds v a) : v ∈ members := by
  by_contra hv
  rw [Solution.Holds, hs.factsOf_eq_empty hv] at ha
  exact not_holds_empty ha

theorem Solved.mem_of_troubled (hs : Solved g l members s)
    (h : (s.factsOf v).Troubled l g.nodes[v]?) : v ∈ members := by
  by_contra hv
  rw [hs.factsOf_eq_empty hv] at h
  exact not_troubled_empty h

theorem Delivered.of_part {w : Solution} {e : Edge × EdgeId}
    (hin : ∀ e ∈ g.edges.toList, e.source ∈ members → e.target ∈ members)
    (hagree : ∀ v ∈ members, w.factsOf v = s.factsOf v)
    (hcar : ∀ p ∈ s.carried.toList, p ∈ w.carried.toList) (hv : v ∈ members)
    (he : e ∈ g.successors v) (h : Delivered g s e a) : Delivered g w e a := by
  obtain ⟨hget, rfl⟩ := Graph.mem_successors.1 he
  have htarget := hin e.1 (Array.mem_toList_iff.2 (Array.mem_of_getElem? hget)) hv
  refine h.imp id fun h => ⟨hcar _ h.1, ?_⟩
  rw [Solution.Holds, hagree _ htarget]
  exact h.2

/-- Two solutions over parts of the graph that no edge joins are one over both. -/
theorem Solved.absorb (hs : Solved g l members s) (ht : Solved g l rest t)
    (hdisj : members.Disjoint rest)
    (hin : ∀ e ∈ g.edges.toList, e.source ∈ members → e.target ∈ members)
    (hin' : ∀ e ∈ g.edges.toList, e.source ∈ rest → e.target ∈ rest) :
    Solved g l (members ++ rest) (s.absorb t) := by
  have hleft : ∀ v, v ∉ rest → (s.absorb t).factsOf v = s.factsOf v := fun v hv =>
    Solution.factsOf_absorb_left (ht.within v hv)
  have hright : ∀ v, v ∉ members → (s.absorb t).factsOf v = t.factsOf v := fun v hv =>
    Solution.factsOf_absorb_right (hs.within v hv)
  have hcar : ∀ p, p ∈ (s.absorb t).carried.toList ↔
      p ∈ s.carried.toList ∨ p ∈ t.carried.toList := fun p => SortedSet.mem_union
  -- every node is outside one of the two parts
  have hsplit : ∀ v, v ∉ rest ∨ v ∉ members := fun v => by
    by_cases hv : v ∈ members
    · exact .inl (hdisj hv)
    · exact .inr hv
  have hdel : ∀ {v e a}, v ∈ members → e ∈ g.successors v → Delivered g s e a →
      Delivered g (s.absorb t) e a :=
    .of_part hin (fun v hv => hleft v (hdisj hv)) fun p hp => (hcar p).2 (.inl hp)
  have hdel' : ∀ {v e a}, v ∈ rest → e ∈ g.successors v → Delivered g t e a →
      Delivered g (s.absorb t) e a :=
    .of_part hin' (fun v hv => hright v fun h => hdisj h hv) fun p hp => (hcar p).2 (.inr hp)
  refine ⟨fun v hv => ?_, fun v => ?_, fun v a ha => ?_, ?_, fun J hJ v a o ho => ?_,
    fun v hv a ha => ?_, fun v hv a ha e he => ?_, fun v a ha e he => ?_⟩
  · rw [List.mem_append, not_or] at hv
    rw [Solution.get?_absorb, hs.within v hv.1, ht.within v hv.2, Option.none_or]
  · rcases hsplit v with hv | hv
    · rw [hleft v hv]
      exact hs.steady v
    · rw [hright v hv]
      exact ht.steady v
  · rw [Solution.Holds] at ha
    rcases hsplit v with hv | hv
    · rw [hleft v hv] at ha
      exact hs.lt v a ha
    · rw [hright v hv] at ha
      exact ht.lt v a ha
  · rw [Solution.isConsistent_absorb, hs.evident, ht.evident, ← exists_or]
    refine exists_congr fun v => ?_
    rcases hsplit v with hv | hv
    · rw [hleft v hv, or_iff_left fun h => hv (ht.mem_of_troubled h)]
    · rw [hright v hv, or_iff_right fun h => hv (hs.mem_of_troubled h)]
  · rcases hsplit v with hv | hv
    · rw [hleft v hv] at ho
      exact hs.justified J (hJ.mono (fun _ => List.mem_append_left _) fun p hp =>
        (hcar p).2 (.inl hp)) v a o ho
    · rw [hright v hv] at ho
      exact ht.justified J (hJ.mono (fun _ => List.mem_append_right _) fun p hp =>
        (hcar p).2 (.inr hp)) v a o ho
  · rw [Solution.Holds]
    rcases List.mem_append.1 hv with hv | hv
    · rw [hleft v (hdisj hv)]
      exact hs.seeds v hv a ha
    · rw [hright v fun h => hdisj h hv]
      exact ht.seeds v hv a ha
  · have he' := (mem_returnEdges.1 he).1
    rcases List.mem_append.1 hv with hv | hv
    · exact hdel hv he' (hs.returns v hv a ha e he)
    · exact hdel' hv he' (ht.returns v hv a ha e he)
  · have he' := (mem_onwardEdges.1 he).1
    rw [Solution.Holds] at ha
    rcases hsplit v with hv | hv
    · rw [hleft v hv] at ha
      exact hdel (hs.mem_of_holds ha) he' (hs.onward v a ha e he)
    · rw [hright v hv] at ha
      exact hdel' (ht.mem_of_holds ha) he' (ht.onward v a ha e he)

theorem solved_nil : Solved g l [] {} := by
  have hempty : ∀ v, Solution.factsOf {} v = {} := fun _ => rfl
  refine ⟨fun _ _ => rfl, fun v => ?_, fun v a ha => ?_, ?_, fun J _ v a o ho => ?_,
    fun v hv => absurd hv List.not_mem_nil, fun v hv => absurd hv List.not_mem_nil,
    fun v a ha => ?_⟩
  · rw [hempty]
    exact steady_empty
  · exact absurd ha not_holds_empty
  · refine ⟨fun h => absurd h (by decide), ?_⟩
    rintro ⟨v, hv⟩
    exact absurd hv not_troubled_empty
  · cases ho
  · exact absurd ha not_holds_empty

theorem runAll_ends (hl : l.Lawful) (hg : g.Over l) (hcl : g.Closed) {parts : List (List NodeId)}
    (hnodup : ∀ p ∈ parts, p.Nodup) (hdisj : parts.Pairwise List.Disjoint)
    (hin : ∀ p ∈ parts, ∀ e ∈ g.edges.toList, e.source ∈ p → e.target ∈ p)
    (hfits : budget.used ≤ budget.cap)
    (henough : enough →
      budget.used + (parts.flatten.map (memberSteps g l)).sum ≤ budget.cap) :
    Ends (fun r => Solved g l parts.flatten r.1 ∧
        r.2.used ≤ budget.used + (parts.flatten.map (memberSteps g l)).sum)
      (Fails g budget.cap enough) (runAll g l budget parts) := by
  induction parts generalizing budget with
  | nil => exact Ends.of_ok ⟨solved_nil, Nat.le_refl _⟩
  | cons p parts ih =>
    rw [List.flatten_cons, List.map_append, List.sum_append] at henough ⊢
    obtain ⟨hp, hdisj⟩ := List.pairwise_cons.1 hdisj
    have hin₁ := hin p List.mem_cons_self
    have hinrest : ∀ q ∈ parts, ∀ e ∈ g.edges.toList, e.source ∈ q → e.target ∈ q :=
      fun q hq => hin q (List.mem_cons_of_mem p hq)
    refine (run_ends hl hg hcl hin₁ (hnodup p List.mem_cons_self) hfits fun h => ?_).bind ?_
    · have := henough h
      omega
    rintro _ ⟨f, rfl, hf, hdone, hcap, hfits₁, hused⟩
    rw [← hcap] at hfits₁
    have hrest := ih (fun q hq => hnodup q (List.mem_cons_of_mem p hq)) hdisj hinrest hfits₁
      fun h => by
        have := henough h
        omega
    rw [hcap] at hrest
    refine hrest.bind ?_
    rintro ⟨t, b⟩ ⟨ht, hb⟩
    refine Ends.of_ok ⟨(Solved.of_run hl hg hin₁ hf hdone).absorb ht ?_ hin₁ ?_, ?_⟩
    · intro v hv hrest
      obtain ⟨q, hq, hvq⟩ := List.mem_flatten.1 hrest
      exact hp q hq hv hvq
    · intro e he hsource
      obtain ⟨q, hq, hsq⟩ := List.mem_flatten.1 hsource
      exact List.mem_flatten.2 ⟨q, hq, hinrest q hq e he hsq⟩
    · dsimp only at hb ⊢
      omega

end Spread

namespace Graph

variable {g : Graph} {l : Lattice}

def seeded (g : Graph) : Nat := g.nodes.toList.countP (·.seed?.isSome)

theorem sum_seedSteps (g : Graph) :
    ∑ v ∈ Finset.range g.nodes.size, Spread.seedSteps g v = g.seeded := by
  have hlist : ∀ ns : List Node, ∑ v ∈ Finset.range ns.length,
      (if (ns[v]?.bind (·.seed?)).isSome then 1 else 0) = ns.countP (·.seed?.isSome) := by
    intro ns
    induction ns with
    | nil => rfl
    | cons n ns ih =>
      rw [List.length_cons, Finset.sum_range_succ', List.countP_cons, ← ih]
      rfl
  have := hlist g.nodes.toList
  simpa [Spread.seedSteps, seeded] using this

theorem sum_successors (hg : g.Closed) :
    ∑ v ∈ Finset.range g.nodes.size, (g.successors v).length = g.edges.size := by
  have hlist : ∀ es : List (Edge × EdgeId), (∀ e ∈ es, e.1.source < g.nodes.size) →
      ∑ v ∈ Finset.range g.nodes.size, (es.filter (·.1.source == v)).length = es.length := by
    intro es
    induction es with
    | nil => simp
    | cons e es ih =>
      intro hes
      have he := hes e List.mem_cons_self
      simp only [← List.countP_eq_length_filter] at ih ⊢
      simp only [List.countP_cons, Finset.sum_add_distrib, List.length_cons,
        ih fun d hd => hes d (List.mem_cons_of_mem e hd)]
      simp [Finset.sum_ite_eq, he]
  have hlength : ∀ v, (g.successors v).length =
      (g.numberedEdges.filter (·.1.source == v)).length := fun v => (sortOn_perm _ _).length_eq
  simp only [hlength]
  rw [hlist]
  · simp [numberedEdges]
  · intro e he
    have := List.mem_zipIdx_iff_getElem?.1 he
    exact (hg e.1 (List.mem_of_getElem? this)).1

/-- Each level over each edge, and each seed, once. -/
theorem sum_memberSteps (hg : g.Closed) (l : Lattice) :
    (g.components.flatten.map (Spread.memberSteps g l)).sum = g.edges.size * l.size + g.seeded := by
  have hrange : g.components.flatten.toFinset = Finset.range g.nodes.size := by
    ext v
    rw [List.mem_toFinset, mem_flatten_components hg, Finset.mem_range]
  calc (g.components.flatten.map (Spread.memberSteps g l)).sum
      = ∑ v ∈ Finset.range g.nodes.size,
          (Spread.seedSteps g v + l.size * (g.successors v).length) := by
        rw [← List.sum_toFinset _ (nodup_flatten_components hg), hrange]
        rfl
    _ = g.edges.size * l.size + g.seeded := by
        rw [Finset.sum_add_distrib, sum_seedSteps, ← Finset.mul_sum, sum_successors hg,
          Nat.add_comm, Nat.mul_comm]

theorem components_ends (hl : l.Lawful) (hg : g.Over l) (hcl : g.Closed) {cap : Nat}
    {enough : Prop} (henough : enough → g.edges.size * l.size + g.seeded ≤ cap) :
    Ends (fun r => Spread.Solved g l g.components.flatten r.1 ∧
        r.2.used ≤ g.edges.size * l.size + g.seeded)
      (Spread.Fails g cap enough) (Spread.runAll g l { cap } g.components) := by
  rw [← sum_memberSteps hcl l] at henough ⊢
  rw [← Nat.zero_add (List.sum _)] at henough ⊢
  exact Spread.runAll_ends hl hg hcl (fun p => nodup_of_mem_components hcl)
    (disjoint_components hcl) (fun p hp e he => (edge_within_component hcl hp he).1)
    (Nat.zero_le _) henough

theorem solve_eq {settings : SolverSettings} {cap : Nat}
    (hcap : settings.stepCap g.nodes.size g.edges.size l.size = .ok cap) :
    g.solve l settings = (Spread.runAll g l { cap } g.components).map (·.1) := by
  rw [solve, hcap]
  change (Spread.runAll g l { cap } g.components >>= fun r => pure r.1) = _
  cases Spread.runAll g l { cap } g.components <;> rfl

/-- Whatever the settings, what solving gives is a solution over all nodes. -/
theorem solved_of_solve (hl : l.Lawful) (hg : g.Over l) (hcl : g.Closed)
    {settings : SolverSettings} {s : Solution} (h : g.solve l settings = .ok s) :
    Spread.Solved g l g.components.flatten s := by
  obtain ⟨cap, -, h⟩ := bind_eq_ok.1 h
  obtain ⟨r, hr, h⟩ := bind_eq_ok.1 h
  cases h
  have : Ends _ (Spread.Fails g cap False) (Spread.runAll g l { cap } g.components) :=
    components_ends hl hg hcl False.elim
  rw [hr] at this
  exact this.1

theorem seeded_le (hg : g.Over l) : g.seeded ≤ g.nodes.size * l.size := by
  rcases Nat.eq_zero_or_pos l.size with hzero | hpos
  · -- without levels no node can start with one
    refine (List.countP_eq_zero.2 fun n hn hseed => ?_).trans_le (Nat.zero_le _)
    obtain ⟨a, ha⟩ := Option.isSome_iff_exists.1 hseed
    obtain ⟨v, hv⟩ := List.getElem?_of_mem hn
    have hlt : a < l.size := hg.seed_lt (by
      rw [← Array.getElem?_toList, hv]
      exact ha)
    rw [hzero] at hlt
    exact absurd hlt (Nat.not_lt_zero a)
  · calc g.seeded ≤ g.nodes.toList.length := List.countP_le_length
      _ = g.nodes.size := Array.length_toList
      _ ≤ g.nodes.size * l.size := Nat.le_mul_of_pos_right _ hpos

end Graph

end Enclave
