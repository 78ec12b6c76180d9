import Enclave.Proofs.Agreement
import Enclave.Proofs.Termination

/-!
# Enclave.Proofs.Relisting

The order in which a program lists its functions, globals, calls and dependences numbers the nodes
of its graph, and so decides in which order levels arrive at a node. The graph itself is the same up
to numbering (`mirrors_of_relisted`).

The verdict does depend on that order. A join of the levels that came first is a level of its own:
it is checked against those that come later and against taints, and another order may never form it
(`verdict_varies_with_listing`). Where no such join can matter, it does not.

* `verdict_of_relisted`: what relisting a program leaves as it was.
-/

namespace Enclave

/-- The program lists the same facts, in any order. -/
structure Program.Relisted (P Q : Program) : Prop where
  labels : P.labels = Q.labels
  functions : P.ir.functions.Perm Q.ir.functions
  globals : P.ir.globals.Perm Q.ir.globals
  calls : P.ir.calls.Perm Q.ir.calls
  defUse : P.ir.defUse.Perm Q.ir.defUse
  control : P.pdg.control.Perm Q.pdg.control

namespace Program.Relisted

variable {P Q : Program}

theorem symm (h : P.Relisted Q) : Q.Relisted P :=
  ⟨h.labels.symm, h.functions.symm, h.globals.symm, h.calls.symm, h.defUse.symm, h.control.symm⟩

theorem mem_clauses (h : P.Relisted Q) {labels : Labels} {c : Clause} :
    c ∈ Clause.ofProgram P.ir P.pdg labels ↔ c ∈ Clause.ofProgram Q.ir Q.pdg labels := by
  simp only [Clause.ofProgram, List.mem_append, List.mem_flatMap, h.functions.mem_iff,
    h.globals.mem_iff, h.calls.mem_iff, h.defUse.mem_iff, h.control.mem_iff]

end Program.Relisted

/-- Every number that the analysis of the program counts fits its word. -/
structure Prepared.Fits (p : Prepared) : Prop where
  steps : (p.graph.edges.size + p.graph.nodes.size) * p.lattice.size < word64
  distances : 2 * p.graph.nodes.size < word32
  lines : ¬ p.graph.Unlisted

instance (p : Prepared) : Decidable p.Fits :=
  decidable_of_iff (_ ∧ _ ∧ _) ⟨fun h => ⟨h.1, h.2.1, h.2.2⟩, fun h => ⟨h.1, h.2, h.3⟩⟩

namespace Analysis

variable {settings : AnalysisSettings} {P Q : Program} {p q : Prepared} {s : Solution}

/-- Relisting a program keeps its lattice, and its graph up to numbering. -/
theorem mirrors_of_relisted (h : P.Relisted Q) (hp : prepare settings P = .ok (.ok p))
    (hq : prepare settings Q = .ok (.ok q)) :
    p.lattice = q.lattice ∧ p.graph.Mirrors q.graph := by
  obtain ⟨hlattice, hlabels, hgraph, -⟩ := prepare_eq_ok hp
  obtain ⟨hlattice', hlabels', hgraph', -⟩ := prepare_eq_ok hq
  rw [h.labels] at hlattice hlabels
  have hl : p.lattice = q.lattice := Except.ok.inj (hlattice.symm.trans hlattice')
  rw [hl] at hlabels
  have hlab : p.labels = q.labels := Except.ok.inj (hlabels.symm.trans hlabels')
  have hreads := Graph.reads_ofProgram hgraph
  rw [← hlab] at hgraph'
  have hreads' := (Graph.reads_ofProgram hgraph').congr fun _ => h.mem_clauses
  exact ⟨hl, hreads.mirrors hreads' hreads.oneLabel⟩

theorem exists_solution (hmax : settings.solver.maxSteps = none) (hvalid : p.Valid)
    (hfits : p.Fits) : ∃ s o, p.graph.solve p.lattice settings.solver = .ok s ∧
      solve settings p = .ok o ∧ Reported s o := by
  obtain ⟨s, hs⟩ := exists_solved hmax hvalid hfits.steps hfits.distances
  have hend := solve_ends hvalid hs
  cases ho : solve settings p with
  | error e =>
    rw [ho] at hend
    exact absurd hend.1 hfits.lines
  | ok o =>
    rw [ho] at hend
    exact ⟨s, o, hs, rfl, hend.2⟩

theorem Reported.tag_ne {o : Outcome} (h : Reported s o) : o.tag ≠ "Error" := by
  rcases h with ⟨-, t, rfl⟩ | ⟨-, conflicts, -, rfl⟩ <;> simp [Outcome.tag]

theorem Reported.tag_eq {s' : Solution} {o o' : Outcome} (h : Reported s o) (h' : Reported s' o')
    (hforth : s.isConsistent = true → s'.isConsistent = true)
    (hback : s'.isConsistent = true → s.isConsistent = true) : o.tag = o'.tag := by
  rcases h with ⟨hcons, t, rfl⟩ | ⟨hcons, conflicts, -, rfl⟩ <;>
    rcases h' with ⟨hcons', t', rfl⟩ | ⟨hcons', conflicts', -, rfl⟩
  · rfl
  · cases hcons'.symm.trans (hforth hcons)
  · cases hcons.symm.trans (hback hcons')
  · rfl

theorem levelOf?_of_relisted {A A' : Assignment} {t t' : Topology} (h : P.Relisted Q)
    (hp : prepare settings P = .ok (.ok p)) (hq : prepare settings Q = .ok (.ok q))
    (hlevel : ∀ v w, p.graph.Twin q.graph v w → A.level? v = A'.level? w)
    (ht : A.topology p.graph p.lattice settings.sourcePath = .ok t)
    (ht' : A'.topology q.graph q.lattice settings.sourcePath = .ok t') (name : String) :
    t.levelOf? name = t'.levelOf? name := by
  obtain ⟨hl, hmirrors⟩ := mirrors_of_relisted h hp hq
  have hmirrors' := (mirrors_of_relisted h.symm hq hp).2
  have hreads := Graph.reads_ofProgram (prepare_eq_ok hp).2.2.1
  have hreads' := Graph.reads_ofProgram (prepare_eq_ok hq).2.2.1
  refine Option.ext fun level => ?_
  rw [Assignment.levelOf?_topology hreads.nodes.distinct ht,
    Assignment.levelOf?_topology hreads'.nodes.distinct ht']
  constructor
  · rintro ⟨v, m, a, hm, hname, hkind, ha, hlevelname⟩
    obtain ⟨w, hw⟩ := hmirrors'.node v (Graph.lt_size hm)
    have hsame := hlevel v w hw.symm
    obtain ⟨n, m', hn, hm', hname', hkind', -⟩ := hw
    cases hm.symm.trans hm'
    exact ⟨w, n, a, hn, hname'.trans hname, hkind' ▸ hkind, hsame ▸ ha, hl ▸ hlevelname⟩
  · rintro ⟨w, n, a, hn, hname, hkind, ha, hlevelname⟩
    obtain ⟨v, hv⟩ := hmirrors.node w (Graph.lt_size hn)
    have hsame := hlevel v w hv
    obtain ⟨m, n', hm, hn', hname', hkind', -⟩ := hv
    cases hn.symm.trans hn'
    exact ⟨v, m, a, hm, hname'.trans hname, hkind' ▸ hkind, hsame ▸ ha, hl ▸ hlevelname⟩

/--
Programs that differ only in the order of their lists, and whose numbers fit, both get a partition
or conflicts. If no join can matter, both get the same of the two; and if what functions take as
arguments does not depend on joins, two partitions give every function and global the same level.
-/
theorem verdict_of_relisted (hmax : settings.solver.maxSteps = none) (h : P.Relisted Q)
    (hp : prepare settings P = .ok (.ok p)) (hq : prepare settings Q = .ok (.ok q))
    (hfits : p.Fits) (hfits' : q.Fits) :
    ∃ o o', analyze settings P = .ok o ∧ analyze settings Q = .ok o' ∧
      o.tag ≠ "Error" ∧ o'.tag ≠ "Error" ∧
      (OrderFree p.lattice p.graph → o.tag = o'.tag) ∧
      (p.lattice.Selective ∨ p.graph.ArgumentTaints p.lattice.DownClosed →
        ∀ t t', o = .success t → o' = .success t' →
          ∀ name, t.levelOf? name = t'.levelOf? name) := by
  have hvalid := valid_of_prepare hp
  have hvalid' := valid_of_prepare hq
  obtain ⟨hl, hmirrors⟩ := mirrors_of_relisted h hp hq
  have hmirrors' := (mirrors_of_relisted h.symm hq hp).2
  have hsolved : ∀ {s}, p.graph.solve p.lattice settings.solver = .ok s →
      Spread.Solved p.graph p.lattice p.graph.components.flatten s :=
    Graph.solved_of_solve hvalid.lawful hvalid.labels hvalid.closed
  have hsolved' : ∀ {s}, q.graph.solve q.lattice settings.solver = .ok s →
      Spread.Solved q.graph p.lattice q.graph.components.flatten s :=
    hl ▸ Graph.solved_of_solve hvalid'.lawful hvalid'.labels hvalid'.closed
  obtain ⟨s, o, hs, ho, hverdict⟩ := exists_solution hmax hvalid hfits
  obtain ⟨s', o', hs', ho', hverdict'⟩ := exists_solution hmax hvalid' hfits'
  refine ⟨o, o', (analyze_eq_solve hp).trans ho, (analyze_eq_solve hq).trans ho', ?_, ?_, ?_, ?_⟩
  · exact hverdict.tag_ne
  · exact hverdict'.tag_ne
  · intro hfree
    refine hverdict.tag_eq hverdict' ?_ ?_
    · exact (hsolved hs).isConsistent_of_covers hvalid.lawful hvalid.closed hmirrors.covers
        (hsolved' hs') hfree
    · exact (hsolved' hs').isConsistent_of_covers hvalid.lawful hvalid'.closed hmirrors'.covers
        (hsolved hs) (hfree.of_mirrors hmirrors)
  · rintro hfree t t' rfl rfl
    obtain ⟨s, A, hs, hcons, hA, ht⟩ := solve_eq_success ho
    obtain ⟨s', A', hs', hcons', hA', ht'⟩ := solve_eq_success ho'
    refine levelOf?_of_relisted h hp hq (fun v w hvw => ?_) ht ht'
    exact (hsolved hs).level?_eq_of_mirrors hvalid.lawful hvalid.closed hvalid'.closed hmirrors
      hmirrors' (hsolved' hs') hcons hcons' hfree hA (hl ▸ hA') hvw

/-- Three functions whose data meet at `u` and go on to `v`, with the order they are listed in. -/
def meeting (order : List String) (v : ElementDecl) : Program where
  labels := {
    functions := .ofList [
      ("x", { level := some "a" }), ("y", { level := some "b" }), ("z", { level := some "c" }),
      ("v", v)] }
  ir := {
    functions := order.map ({ name := · })
    defUse := [⟨"x", "u", none⟩, ⟨"y", "u", none⟩, ⟨"z", "u", none⟩, ⟨"u", "v", none⟩] }

/-- Three levels and joins of them, `b` and `c` having only that of all three. -/
def joins (exclusive : List (String × String)) : AnalysisSettings where
  lattice := {
    levels := ["ab", "ac", "abc"]
    order := [("a", "ab"), ("b", "ab"), ("a", "ac"), ("c", "ac"), ("ab", "abc"), ("ac", "abc")]
    exclusive }

theorem meeting_relisted (v : ElementDecl) :
    (meeting ["x", "y", "z"] v).Relisted (meeting ["x", "z", "y"] v) := by
  have horder : ["x", "y", "z"].Perm ["x", "z", "y"] := (List.Perm.swap "z" "y" []).cons "x"
  exact ⟨rfl, horder.map ({ name := · } : String → Declaration), .rfl, .rfl, .rfl, .rfl⟩

theorem verdict_of_relisted_meeting : ∃ settings P Q p q,
    settings.solver.maxSteps = none ∧ P.Relisted Q ∧ P ≠ Q ∧
    prepare settings P = .ok (.ok p) ∧ prepare settings Q = .ok (.ok q) ∧ p.Fits ∧ q.Fits ∧
    OrderFree p.lattice p.graph ∧ ¬ p.lattice.Selective ∧
    ∃ o o', analyze settings P = .ok o ∧ analyze settings Q = .ok o' ∧ o.tag = o'.tag ∧
      ∀ t t', o = .success t → o' = .success t' → ∀ name, t.levelOf? name = t'.levelOf? name := by
  let taint : TaintDecl := { arguments := some ["a", "b", "ab"] }
  let P := meeting ["x", "y", "z"] { taint := some taint }
  let Q := meeting ["x", "z", "y"] { taint := some taint }
  have hP : (prepare (joins []) P).toOption.any (fun r => r.toOption.any fun p =>
      decide (p.Fits ∧ OrderFree p.lattice p.graph ∧ ¬ p.lattice.Selective ∧
        p.graph.ArgumentTaints p.lattice.DownClosed)) = true := by decide +kernel
  have hQ : (prepare (joins []) Q).toOption.any (fun r => r.toOption.any fun q =>
      decide q.Fits) = true := by decide +kernel
  obtain ⟨r, hp, hr⟩ := exists_ok_of_any hP
  obtain ⟨p, rfl, hcheck⟩ := exists_ok_of_any hr
  obtain ⟨hfits, hfree, hsel, hargs⟩ := of_decide_eq_true hcheck
  obtain ⟨r', hq, hr'⟩ := exists_ok_of_any hQ
  obtain ⟨q, rfl, hcheck'⟩ := exists_ok_of_any hr'
  have hfits' := of_decide_eq_true hcheck'
  obtain ⟨o, o', ho, ho', -, -, htag, hlevels⟩ :=
    verdict_of_relisted rfl (meeting_relisted _) hp hq hfits hfits'
  exact ⟨joins [], P, Q, p, q, rfl, meeting_relisted _, by decide, hp, hq, hfits, hfits', hfree,
    hsel, o, o', ho, ho', htag hfree, hlevels (.inr hargs)⟩

/-- What is seen of the outcomes with `y` listed before `z` and with `y` listed after it. -/
def seenBothWays {α : Type} (settings : AnalysisSettings) (v : ElementDecl) (seen : Outcome → α) :
    Except Overflow α × Except Overflow α :=
  ((analyze settings (meeting ["x", "y", "z"] v)).map seen,
    (analyze settings (meeting ["x", "z", "y"] v)).map seen)

/--
Listing `y` before `z` forms the join of `a` and `b`, listing it after `z` that of `a` and `c`. One
of the two may be exclusive with a level that is known already, lie outside a code taint, or be
taken as an argument where the other is not.
-/
theorem verdict_varies_with_listing :
    (∀ v, (meeting ["x", "y", "z"] v).Relisted (meeting ["x", "z", "y"] v)) ∧
    seenBothWays (joins [("ab", "c")]) {} (·.tag) = (.ok "Conflict", .ok "Success") ∧
    seenBothWays (joins []) { taint := some { code := some ["a", "b", "c", "ab", "abc"] } }
      (·.tag) = (.ok "Success", .ok "Conflict") ∧
    seenBothWays (joins []) { taint := some { arguments := some ["a", "b", "c", "ac", "abc"] } }
      (fun o => o.topology?.bind (·.levelOf? "v")) = (.ok (some "ab"), .ok (some "a")) := by
  refine ⟨meeting_relisted, ?_, ?_, ?_⟩ <;> decide +kernel

end Analysis

end Enclave
