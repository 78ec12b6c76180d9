import Enclave.Proofs.Relisting
import Enclave.Proofs.Taints

/-!
# Enclave.Proofs.Extending

One more data or control dependence between elements that a program has already. The graph gains an
edge, or an edge gains a kind, and covers the one before.

A conflict can go away with that, for two reasons. A control dependence along an edge that carried
data alone takes away the return level that was sent there. And a level that arrives earlier than
others may have a join with them in which they are no longer told apart
(`conflict_lost_with_one_more`). Where neither can happen, conflicts stay.

* `conflict_of_extended`: the conflicts of a program are conflicts of the one with more.
-/

namespace Enclave

/-- The program with one more dependence, these being listed in any order. -/
inductive Program.Extended (P : Program) : DependenceKind → FlowDecl → Program → Prop
  | data {f : FlowDecl} {flows : List FlowDecl} : flows.Perm (f :: P.ir.defUse) →
      Extended P .data f { P with ir.defUse := flows }
  | control {f : FlowDecl} {flows : List FlowDecl} : flows.Perm (f :: P.pdg.control) →
      Extended P .control f { P with pdg.control := flows }

namespace Program.Extended

variable {P Q : Program} {k : DependenceKind} {f : FlowDecl}

theorem labels_eq (h : P.Extended k f Q) : Q.labels = P.labels := by
  cases h <;> rfl

theorem mem_clauses (h : P.Extended k f Q) {labels : Labels} {c : Clause} :
    c ∈ Clause.ofProgram Q.ir Q.pdg labels ↔
      c ∈ Clause.ofFlow k f ∨ c ∈ Clause.ofProgram P.ir P.pdg labels := by
  cases h with
  | data hflows =>
    simp only [Clause.ofProgram, List.mem_append, List.mem_flatMap, hflows.mem_iff, List.mem_cons,
      exists_eq_or_imp, or_assoc]
    exact or_left_comm
  | control hflows =>
    simp only [Clause.ofProgram, List.mem_append, List.mem_flatMap, hflows.mem_iff, List.mem_cons,
      exists_eq_or_imp]
    exact or_assoc

theorem exists_graph (h : P.Extended k f Q) {labels : Labels} {g : Graph}
    (hg : Graph.ofProgram P.ir P.pdg labels = .ok (.ok g)) :
    ∃ g', Graph.ofProgram Q.ir Q.pdg labels = .ok (.ok g') := by
  obtain ⟨d, hd, herrors, -⟩ := Graph.ofProgram_eq_ok.1 hg
  cases h <;> exact ⟨_, Graph.ofProgram_eq_ok.2 ⟨d, hd, herrors, rfl⟩⟩

end Program.Extended

namespace Graph

variable {g h : Graph} {l : Lattice} {es : List Clause} {a b : String} {k : DependenceKind}

def Knows (g : Graph) (f : FlowDecl) : Prop :=
  (g.idOf? f.source).isSome = true ∧ (g.idOf? f.target).isSome = true

instance (g : Graph) (f : FlowDecl) : Decidable (g.Knows f) := inferInstanceAs (Decidable (_ ∧ _))

/-- From one name to the other there is an edge, for data and nothing else. -/
def DataAlone (g : Graph) (a b : String) : Prop :=
  ∃ e ∈ g.edges.toList, g.name e.source = a ∧ g.name e.target = b ∧ e.kinds.isPureData = true

instance (g : Graph) (a b : String) : Decidable (g.DataAlone a b) :=
  inferInstanceAs (Decidable (∃ e ∈ g.edges.toList, _ ∧ _ ∧ _))

/-- If the function of this name has a single return level, it follows for the function itself. -/
def HasReturn (g : Graph) (name : String) : Prop :=
  ∀ (v : NodeId) (n : Node) (r : Level), g.nodes[v]? = some n → n.name = name →
    n.singleReturn? = some r → Derived g v r

/-- Levels that follow for a node are incompatible, or are not levels of its code. -/
def Clashes (g : Graph) (l : Lattice) : Prop :=
  ∃ v, (∃ a b, Derived g v a ∧ Derived g v b ∧ a ≠ b ∧ l.compatible a b = false) ∨
    ∃ a code, Derived g v a ∧ g.nodes[v]?.bind (·.code?) = some code ∧ a ∉ code.toList

theorem HasReturn.of_seed (h : ∀ n ∈ g.nodes.toList, n.name = a →
    ∀ r ∈ n.singleReturn?, n.seed? = some r) : g.HasReturn a := by
  intro v n r hn hname hr
  refine .seed ?_
  rw [hn, Option.bind_some]
  exact h n (Array.mem_toList_iff.2 (Array.mem_of_getElem? hn)) hname r hr

theorem NodesRead.mem_mention_of_idOf? (hg : g.NodesRead es) (h : (g.idOf? a).isSome = true) :
    .mention a ∈ es := by
  obtain ⟨v, hv⟩ := Option.isSome_iff_exists.1 h
  obtain ⟨n, hn, hname⟩ := getElem?_of_idOf? hv
  exact (hg.mentioned a).2 ⟨v, n, hn, hname⟩

/-- With one more dependence a graph covers the one before, if a return level that it keeps from
being sent follows for the function anyway. -/
theorem Reads.covers (hg : g.Reads (.edge a b k :: es)) (hh : h.Reads es) (hone : OneLabel es)
    (hreturn : k ≠ .data → h.DataAlone a b → g.HasReturn a) : g.Covers h where
  node w hw := hg.nodes.of_edge.exists_twin hh.nodes hone hw
  edge d hd := by
    obtain ⟨k₀, hk₀⟩ := hh.edges.kinded d hd
    obtain ⟨e, he, hs, ht, -⟩ := (hg.edges.edge _ _ k₀).1
      (List.mem_cons_of_mem _ ((hh.contains_iff hd).1 hk₀))
    obtain ⟨hes, het⟩ := hg.edges.closed e he
    obtain ⟨hds, hdt⟩ := hh.edges.closed d hd
    have hkinds : ∀ k', e.kinds.contains k' = true ↔
        (h.name d.source = a ∧ h.name d.target = b ∧ k' = k) ∨ d.kinds.contains k' = true := by
      intro k'
      rw [hg.contains_iff he, hh.contains_iff hd, hs, ht, List.mem_cons, Clause.edge.injEq]
    refine ⟨e, he, hg.nodes.of_edge.twin_of_name hh.nodes hone hes hds hs,
      hg.nodes.of_edge.twin_of_name hh.nodes hone het hdt ht,
      fun k' hk' => (hkinds k').2 (.inr hk'), fun hpure => ?_, fun hpure => ?_⟩
    · -- the edge before has some kind, and data is the only one left for it
      rw [Kinds.isPureData_iff] at hpure ⊢
      have hdata : ∀ k', d.kinds.contains k' = true → k' = .data := fun k' hk' =>
        (hpure k').1 ((hkinds k').2 (.inr hk'))
      refine fun k' => ⟨hdata k', ?_⟩
      rintro rfl
      exact hdata k₀ hk₀ ▸ hk₀
    · by_cases hmore : h.name d.source = a ∧ h.name d.target = b ∧ k ≠ .data
      · obtain ⟨hsource, htarget, hk⟩ := hmore
        right
        intro r hr
        obtain ⟨n, hn, hr⟩ := Option.bind_eq_some_iff.1 hr
        have hname : n.name = a := by rw [← name_eq hn, hs, hsource]
        exact hreturn hk ⟨d, hd, hsource, htarget, hpure⟩ e.source n r hn hname hr
      · left
        rw [Kinds.isPureData_iff] at hpure ⊢
        intro k'
        rw [hkinds, hpure]
        refine or_iff_right_of_imp ?_
        rintro ⟨hsource, htarget, rfl⟩
        by_contra hk
        exact hmore ⟨hsource, htarget, hk⟩
  unique u v w hu hv := hg.nodes.of_edge.twin_unique hu hv

theorem Covers.clashes (hc : g.Covers h) (hh : h.Clashes l) : g.Clashes l := by
  obtain ⟨w, ⟨a, b, ha, hb, hne, hclash⟩ | ⟨a, code, ha, hcode, hout⟩⟩ := hh
  · obtain ⟨v, hv, ha⟩ := hc.exists_derived ha
    obtain ⟨u, hu, hb⟩ := hc.exists_derived hb
    cases hc.unique v u w hv hu
    exact ⟨v, .inl ⟨a, b, ha, hb, hne, hclash⟩⟩
  · obtain ⟨v, hv, ha⟩ := hc.exists_derived ha
    exact ⟨v, .inr ⟨a, code, ha, hv.code?.trans hcode, hout⟩⟩

end Graph

theorem Spread.Solved.inconsistent_of_clashes {g : Graph} {l : Lattice} {s : Solution}
    (hcl : g.Closed) (hs : Solved g l g.components.flatten s) (hg : g.Clashes l) :
    s.isConsistent = false := by
  rw [← Bool.not_eq_true]
  intro hcons
  obtain ⟨v, ⟨a, b, ha, hb, hne, hclash⟩ | ⟨a, code, ha, hcode, hout⟩⟩ := hg
  · have hcompatible := hs.compatible hcons (hs.holds_of_derived hcl ha)
      (hs.holds_of_derived hcl hb) hne
    rw [hclash] at hcompatible
    cases hcompatible
  · exact hout (hs.mem_code hcons hcode (hs.holds_of_derived hcl ha))

/-- A graph that covers one with witnesses has witnesses, if these come from a clash of what
follows or the order of arrival does not matter. -/
theorem Spread.Solved.inconsistent_of_covers {g h : Graph} {l : Lattice} {s s' : Solution}
    (hl : l.Lawful) (hcl : g.Closed) (hc : g.Covers h) (hs : Solved g l g.components.flatten s)
    (hs' : Solved h l h.components.flatten s') (hcase : h.Clashes l ∨ OrderFree l g)
    (hcons : s'.isConsistent = false) : s.isConsistent = false := by
  rcases hcase with hclash | hfree
  · exact hs.inconsistent_of_clashes hcl (hc.clashes hclash)
  · rw [← Bool.not_eq_true] at hcons ⊢
    exact fun hconsistent => hcons (hs.isConsistent_of_covers hl hcl hc hs' hfree hconsistent)

namespace Analysis

variable {settings : AnalysisSettings} {P Q : Program} {p q : Prepared} {k : DependenceKind}
  {f : FlowDecl}

/-- One more dependence between known names leaves a program that is accepted, with one clause more
about its graph. -/
theorem exists_prepared_of_extended (hext : P.Extended k f Q)
    (hp : prepare settings P = .ok (.ok p)) (hknows : p.graph.Knows f) :
    ∃ q, prepare settings Q = .ok (.ok q) ∧ q.lattice = p.lattice ∧
      q.graph.Reads (.edge f.source f.target k :: Clause.ofProgram P.ir P.pdg p.labels) := by
  obtain ⟨hlattice, hlabels, hgraph, hlevels⟩ := prepare_eq_ok hp
  have hnodes := (Graph.reads_ofProgram hgraph).nodes
  have hsource := hnodes.mem_mention_of_idOf? hknows.1
  have htarget := hnodes.mem_mention_of_idOf? hknows.2
  obtain ⟨v, n, hn, -⟩ := (hnodes.mentioned f.source).1 hsource
  obtain ⟨g, hg⟩ := hext.exists_graph hgraph
  rw [← hext.labels_eq] at hlattice hlabels
  refine ⟨⟨p.lattice, p.labels, g⟩, prepare_of_ok hlattice hlabels hg
    (hlevels (Nat.zero_lt_of_lt (Graph.lt_size hn))), rfl,
    (Graph.reads_ofProgram hg).congr fun c => ?_⟩
  rw [hext.mem_clauses, List.mem_cons, Clause.ofFlow, Clause.ofLink]
  simp only [List.mem_cons, List.not_mem_nil, or_false]
  constructor
  · rintro (rfl | hc)
    · exact .inl (.inl rfl)
    · exact .inr hc
  · rintro ((rfl | rfl | rfl) | hc)
    · exact .inl rfl
    · exact .inr htarget
    · exact .inr hsource
    · exact .inr hc

/--
Every program with conflicts is still accepted with one more data or control dependence between
names that it has, and still without a partition: if a control dependence that joins data on its
edge keeps no return level from being sent but one that follows for the function anyway, and if the
levels that follow clash or the order in which levels arrive does not matter. As long as the numbers
of steps and distances fit, the outcome is again at least one conflict.
-/
theorem conflict_of_extended {conflicts : List Conflict} (hmax : settings.solver.maxSteps = none)
    (hext : P.Extended k f Q) (hp : prepare settings P = .ok (.ok p)) (hknows : p.graph.Knows f)
    (hconflict : analyze settings P = .ok (.conflict conflicts)) :
    ∃ q, prepare settings Q = .ok (.ok q) ∧
      ((k = .control → p.graph.DataAlone f.source f.target → q.graph.HasReturn f.source) →
        p.graph.Clashes p.lattice ∨ OrderFree p.lattice p.graph →
        (∀ t, analyze settings Q ≠ .ok (.success t)) ∧
        ((q.graph.edges.size + q.graph.nodes.size) * q.lattice.size < word64 →
          2 * q.graph.nodes.size < word32 →
          ∃ more, more ≠ [] ∧ analyze settings Q = .ok (.conflict more))) := by
  obtain ⟨q, hq, hl, hreads'⟩ := exists_prepared_of_extended hext hp hknows
  refine ⟨q, hq, fun hreturn hcase => ?_⟩
  have hvalid := valid_of_prepare hp
  have hvalid' := valid_of_prepare hq
  have hreads := Graph.reads_ofProgram (prepare_eq_ok hp).2.2.1
  have hkind : k ≠ .data → k = .control := by
    cases hext <;> simp
  have hcovers : q.graph.Covers p.graph :=
    hreads'.covers hreads hreads.oneLabel fun hk => hreturn (hkind hk)
  rw [analyze_eq_solve hp] at hconflict
  obtain ⟨s, hs, hcons⟩ := solve_eq_conflict hconflict
  have hsolved := Graph.solved_of_solve hvalid.lawful hvalid.labels hvalid.closed hs
  have hcase' : p.graph.Clashes p.lattice ∨ OrderFree p.lattice q.graph :=
    hcase.imp id (·.of_twins fun w hw =>
      hreads.nodes.exists_twin hreads'.nodes.of_edge hreads.oneLabel hw)
  have hinconsistent : ∀ s', q.graph.solve q.lattice settings.solver = .ok s' →
      s'.isConsistent = false := by
    intro s' hs'
    have hsolved' := Graph.solved_of_solve hvalid'.lawful hvalid'.labels hvalid'.closed hs'
    rw [hl] at hsolved'
    exact hsolved'.inconsistent_of_covers hvalid.lawful hvalid'.closed hcovers hsolved hcase' hcons
  constructor
  · intro t ht
    obtain ⟨q', hq', hsuccess⟩ := exists_prepared_of_success ht
    cases hq.symm.trans hq'
    obtain ⟨s', -, hs', hcons', -⟩ := solve_eq_success hsuccess
    rw [hinconsistent s' hs'] at hcons'
    cases hcons'
  · intro hsteps hdistances
    obtain ⟨s', hs'⟩ := exists_solved hmax hvalid' hsteps hdistances
    obtain ⟨more, hne, hmore⟩ := solve_of_inconsistent hvalid' hs' (hinconsistent s' hs')
    exact ⟨more, hne, (analyze_eq_solve hq).trans hmore⟩

/-- Data of three functions, and of `w` if there is a flow from it, meets at `u` and goes on. -/
def gathering (order : List String) (x v : ElementDecl) (flows control : List FlowDecl) :
    Program where
  labels := {
    functions := .ofList [
      ("w", { level := some "abc" }), ("x", x), ("y", { level := some "b" }),
      ("z", { level := some "c" }), ("v", v)] }
  ir := {
    functions := order.map ({ name := · })
    defUse := flows ++ [⟨"x", "u", none⟩, ⟨"y", "u", none⟩, ⟨"z", "u", none⟩, ⟨"u", "v", none⟩] }
  pdg := { control }

/--
A control dependence from `x` to `u` where there was data alone. The level that `x` returns is its
own, so it still arrives at `u`, and goes on to where it clashes.
-/
theorem conflict_of_extended_gathering : ∃ settings P Q p q,
    settings.solver.maxSteps = none ∧ P.Extended .control ⟨"x", "u", none⟩ Q ∧
    prepare settings P = .ok (.ok p) ∧ p.graph.Knows ⟨"x", "u", none⟩ ∧
    (∃ conflicts, analyze settings P = .ok (.conflict conflicts)) ∧
    p.graph.DataAlone "x" "u" ∧ q.graph.HasReturn "x" ∧
    OrderFree p.lattice p.graph ∧ ¬ p.lattice.Selective ∧
    prepare settings Q = .ok (.ok q) ∧
    ∃ more, more ≠ [] ∧ analyze settings Q = .ok (.conflict more) := by
  let x : ElementDecl := { level := some "a", taint := some {
    returns := some ["a"], arguments := some ["a"], code := some ["a"] } }
  let P := gathering ["w", "x", "y", "z"] x { level := some "q" } [] []
  let Q := gathering ["w", "x", "y", "z"] x { level := some "q" } [] [⟨"x", "u", none⟩]
  have hext : P.Extended .control ⟨"x", "u", none⟩ Q := .control .rfl
  have hP : (prepare (joins []) P).toOption.any (fun r => r.toOption.any fun p =>
      decide (p.graph.Knows ⟨"x", "u", none⟩ ∧ p.graph.DataAlone "x" "u" ∧
        OrderFree p.lattice p.graph ∧ ¬ p.lattice.Selective)) = true := by decide +kernel
  have hQ : (prepare (joins []) Q).toOption.any (fun r => r.toOption.any fun q =>
      decide ((q.graph.edges.size + q.graph.nodes.size) * q.lattice.size < word64 ∧
        2 * q.graph.nodes.size < word32 ∧ ∀ n ∈ q.graph.nodes.toList, n.name = "x" →
          ∀ r ∈ n.singleReturn?, n.seed? = some r)) = true := by decide +kernel
  have htag : (analyze (joins []) P).toOption.any (fun o => !o.conflicts.isEmpty) = true := by
    decide +kernel
  obtain ⟨r, hp, hr⟩ := exists_ok_of_any hP
  obtain ⟨p, rfl, hcheck⟩ := exists_ok_of_any hr
  obtain ⟨hknows, halone, hfree, hsel⟩ := of_decide_eq_true hcheck
  obtain ⟨o, ho, hsome⟩ := exists_ok_of_any htag
  cases o with
  | conflict conflicts =>
    obtain ⟨q, hq, hrest⟩ := conflict_of_extended rfl hext hp hknows ho
    obtain ⟨r', hq', hr'⟩ := exists_ok_of_any hQ
    obtain ⟨q', rfl, hcheck'⟩ := exists_ok_of_any hr'
    cases hq.symm.trans hq'
    obtain ⟨hsteps, hdistances, hseed⟩ := of_decide_eq_true hcheck'
    have hreturn := Graph.HasReturn.of_seed hseed
    exact ⟨joins [], P, Q, p, q, rfl, hext, hp, hknows, ⟨conflicts, ho⟩, halone, hreturn, hfree,
      hsel, hq, (hrest (fun _ _ => hreturn) (.inr hfree)).2 hsteps hdistances⟩
  | success t => cases hsome
  | failure problems => cases hsome

/-- The program is accepted with conflicts and knows both names, and one more entry ends them. -/
def Lost (settings : AnalysisSettings) (P Q : Program) (f : FlowDecl) : Prop :=
  (prepare settings P).toOption.any (fun r => r.toOption.any fun p =>
      decide (p.graph.Knows f)) = true ∧
    (analyze settings P).map (·.tag) = .ok "Conflict" ∧
    (analyze settings Q).map (·.tag) = .ok "Success"

instance (settings : AnalysisSettings) (P Q : Program) (f : FlowDecl) :
    Decidable (Lost settings P Q f) :=
  inferInstanceAs (Decidable (_ ∧ _ ∧ _))

/--
A control dependence beside the data of `f` keeps its return level from `g`. And with `w` at `u` the
join of all levels is there from the start, so that of `a` and `b`, or of `a` and `c`, is never
formed: it cannot be exclusive with `c`, lie outside a code taint, or clash as an argument that `v`
does not take.
-/
theorem conflict_lost_with_one_more :
    (let P := returning "orange" [] [] []
     let Q := returning "orange" [] [] [⟨"f", "g", none⟩]
     P.Extended .control ⟨"f", "g", none⟩ Q ∧ Lost {} P Q ⟨"f", "g", none⟩) ∧
    ∀ case ∈ [
        (joins [("ab", "c")], ["w", "x", "y", "z"], ({} : ElementDecl)),
        (joins [], ["w", "x", "z", "y"],
          { taint := some { code := some ["a", "b", "c", "ab", "abc"] } }),
        (joins [], ["w", "x", "y", "z"],
          { level := some "q", taint := some { arguments := some ["a", "b", "c", "abc"] } })],
      let P := gathering case.2.1 { level := some "a" } case.2.2 [] []
      let Q := gathering case.2.1 { level := some "a" } case.2.2 [⟨"w", "u", none⟩] []
      P.Extended .data ⟨"w", "u", none⟩ Q ∧ Lost case.1 P Q ⟨"w", "u", none⟩ := by
  refine ⟨⟨.control .rfl, by decide +kernel⟩, fun case hcase => ⟨.data .rfl, ?_⟩⟩
  revert case
  decide +kernel

end Analysis

end Enclave
