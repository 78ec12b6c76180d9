import Enclave.Partition.Analysis
import Enclave.Proofs.Acceptance
import Enclave.Proofs.Building
import Enclave.Proofs.Reaching

/-!
# Enclave.Proofs.Preparing

What has been checked of a program once it is prepared: its lattice is a partial order with joins
where it should have them, its labels speak of levels of the lattice, its graph is that of its
parts, and where there are nodes there are levels for them (`Prepared.Valid`).
-/

namespace Enclave

variable {l : Lattice} {name : String}

theorem Lattice.Image.over {names : List String} {set : SortedSet Level} (hne : names ≠ [])
    (h : l.Image names set) : set.Over l := by
  refine ⟨fun hempty => ?_, fun a ha => ?_⟩
  · obtain ⟨n, hn⟩ := List.exists_mem_of_ne_nil names hne
    obtain ⟨a, ha, -⟩ := h.found n hn
    rw [hempty] at ha
    cases ha
  · obtain ⟨n, -, hlookup⟩ := h.named a ha
    exact lookup?_lt hlookup

theorem TaintDecl.over_place {names : Option (List String)} {place : Option (SortedSet Level)}
    (hlists : ∀ ns ∈ names, l.Lists ns) (h : Option.Rel l.Image names place) {set : SortedSet Level}
    (hset : place = some set) : set.Over l := by
  obtain ⟨ns, hns, himage⟩ := exists_of_rel_some (hset ▸ h)
  exact himage.over (hlists ns hns).1

theorem ElementDecl.WellFormed.over_label {e : ElementDecl} (h : e.WellFormed l) :
    (e.label l).Over l := by
  have htaint : ∀ t ∈ (e.label l).taint, ∃ decl : TaintDecl, decl.WellFormed l ∧
      decl.Resolves l t := by
    intro t ht
    obtain ⟨decl, hdecl, hresolves⟩ := exists_of_rel_some (ht ▸ h.resolves.taint)
    exact ⟨decl, h.taint decl hdecl, hresolves⟩
  refine ⟨fun a ha => ?_, fun t ht set hset => ?_, fun t ht set hset => ?_, fun t ht set hset => ?_⟩
  · obtain ⟨m, -, hm⟩ := exists_of_rel_some (ha ▸ h.resolves.level)
    exact Lattice.lookup?_lt hm
  all_goals obtain ⟨decl, hwell, hresolves⟩ := htaint t ht
  · exact TaintDecl.over_place hwell.returns hresolves.returns hset
  · exact TaintDecl.over_place hwell.arguments hresolves.arguments hset
  · exact TaintDecl.over_place hwell.code hresolves.code hset

namespace LabelDecls

/-- Labels come from declarations with which nothing is wrong. -/
theorem exists_decl_of_resolve {d : LabelDecls} {labels : Labels} (h : d.resolve l = .ok labels)
    {x : Label} (hx : (name, x) ∈ labels.functions.toList ∨ (name, x) ∈ labels.globals.toList) :
    ∃ decl : ElementDecl, x = decl.label l ∧ decl.WellFormed l := by
  obtain ⟨hwell, rfl⟩ := resolve_eq_ok.1 h
  rcases hx with hx | hx
  · obtain ⟨⟨n, decl⟩, hdecl, heq⟩ := List.mem_map.1 hx
    cases heq
    exact ⟨decl, rfl, hwell.function hdecl⟩
  · obtain ⟨⟨n, decl⟩, hdecl, heq⟩ := List.mem_map.1 hx
    cases heq
    exact ⟨decl, rfl, hwell.global hdecl⟩

theorem function_of_resolve {d : LabelDecls} {labels : Labels} (h : d.resolve l = .ok labels)
    {decl : ElementDecl} (hdecl : (name, decl) ∈ d.functions.toList) :
    (name, decl.label l) ∈ labels.functions.toList ∧ decl.WellFormed l := by
  obtain ⟨hwell, rfl⟩ := resolve_eq_ok.1 h
  exact ⟨List.mem_map.2 ⟨_, hdecl, rfl⟩, hwell.function hdecl⟩

theorem ne_nil_of_resolve {d : LabelDecls} {errors : List LabelError}
    (h : d.resolve l = .error errors) : errors ≠ [] := by
  rw [resolve] at h
  split at h
  · cases h
  · rename_i hne
    cases h
    exact hne

end LabelDecls

namespace Graph

/-- Labels come from clauses, so a graph speaks of the levels that its clauses speak of. -/
theorem Reads.over {g : Graph} {es : List Clause} (h : g.Reads es)
    (hes : ∀ name x, .label name x ∈ es → x.Over l) : g.Over l := by
  intro n hn x hx
  obtain ⟨v, hv⟩ := Array.mem_iff_getElem?.1 (Array.mem_toList_iff.1 hn)
  exact hes n.name x (h.nodes.label v n x hv hx)

end Graph

theorem Clause.mem_ofProgram_label {ir : IrFacts} {pdg : PdgFacts} {labels : Labels} {x : Label} :
    .label name x ∈ Clause.ofProgram ir pdg labels ↔
      (name, x) ∈ labels.functions.toList ∨ (name, x) ∈ labels.globals.toList := by
  have hlink : ∀ a b k, Clause.label name x ∉ Clause.ofLink a b k := by simp [Clause.ofLink]
  have hcall : ∀ c, Clause.label name x ∉ Clause.ofCall c := by
    intro c
    rw [Clause.ofCall]
    split
    · exact hlink _ _ _
    · split
      · exact List.not_mem_nil
      · simp [hlink]
  have hlabel : ∀ (k : NodeKind) (m : SortedMap String Label),
      Clause.label name x ∈ m.toList.flatMap (Clause.ofLabel k) ↔ (name, x) ∈ m.toList := by
    intro k m
    simp [Clause.ofLabel]
  simp only [Clause.ofProgram, List.mem_append, hlabel]
  simp [hlink, hcall, Clause.ofFlow, Clause.ofDeclaration, or_comm]

theorem Clause.mem_ofProgram_function {ir : IrFacts} {pdg : PdgFacts} {labels : Labels} {x : Label}
    (h : (name, x) ∈ labels.functions.toList) :
    .node name .function ∈ Clause.ofProgram ir pdg labels := by
  simp only [Clause.ofProgram, List.mem_append, List.mem_flatMap]
  exact .inr (.inr (.inr (.inr (.inl ⟨_, h, by simp [Clause.ofLabel]⟩))))

theorem Clause.mem_ofProgram_global {ir : IrFacts} {pdg : PdgFacts} {labels : Labels} {x : Label}
    (h : (name, x) ∈ labels.globals.toList) :
    .node name .global ∈ Clause.ofProgram ir pdg labels := by
  simp only [Clause.ofProgram, List.mem_append, List.mem_flatMap]
  exact .inr (.inr (.inr (.inl ⟨_, h, by simp [Clause.ofLabel]⟩)))

namespace Analysis

variable {settings : AnalysisSettings} {program : Program} {p : Prepared}

theorem prepare_eq_ok (h : prepare settings program = .ok (.ok p)) :
    latticeFor settings program.labels = .ok p.lattice ∧
      program.labels.resolve p.lattice = .ok p.labels ∧
      Graph.ofProgram program.ir program.pdg p.labels = .ok (.ok p.graph) ∧
      (0 < p.graph.nodes.size → 0 < p.lattice.size) := by
  rw [prepare] at h
  split at h
  · cases h
  · rename_i l hlattice
    obtain ⟨r, hr, h⟩ := bind_eq_ok.1 h
    cases r with
    | error errors => cases h
    | ok graph =>
      cases hres : program.labels.resolve l with
      | error errors =>
        have hne : errors.map (·.problem) ≠ [] := by
          simpa using LabelDecls.ne_nil_of_resolve hres
        simp only [hres] at h
        cases h
      | ok labels =>
        simp only [hres] at h hr
        split at h
        · cases h
        · rename_i hsome
          cases h
          refine ⟨hlattice, hres, hr, fun hpos => ?_⟩
          rw [Lattice.size, List.length_pos_iff]
          simpa [Lattice.isEmpty, hpos] using hsome

theorem prepare_of_ok {l : Lattice} {labels : Labels} {g : Graph}
    (hlattice : latticeFor settings program.labels = .ok l)
    (hlabels : program.labels.resolve l = .ok labels)
    (hgraph : Graph.ofProgram program.ir program.pdg labels = .ok (.ok g)) (hlevels : 0 < l.size) :
    prepare settings program = .ok (.ok ⟨l, labels, g⟩) := by
  have hsome : l.isEmpty = false := by
    rw [Lattice.size, List.length_pos_iff] at hlevels
    simpa [Lattice.isEmpty] using hlevels
  simp only [prepare, hlattice, prepareWith, hlabels, Except.toOption, Option.getD_some, hgraph]
  refine bind_eq_ok.2 ⟨.ok g, rfl, ?_⟩
  simp only [hsome]
  rfl

/-- An outcome other than a failure is that of a program which was prepared. -/
theorem exists_prepared_of_analyze {o : Outcome} (h : analyze settings program = .ok o)
    (ho : ∀ problems, o ≠ .failure problems) :
    ∃ p, prepare settings program = .ok (.ok p) ∧ solve settings p = .ok o := by
  obtain ⟨r, hr, h⟩ := bind_eq_ok.1 h
  cases r with
  | error problems =>
    cases h
    exact absurd rfl (ho problems)
  | ok p => exact ⟨p, hr, h⟩

theorem exists_prepared_of_success {t : Topology}
    (h : analyze settings program = .ok (.success t)) :
    ∃ p, prepare settings program = .ok (.ok p) ∧ solve settings p = .ok (.success t) :=
  exists_prepared_of_analyze h nofun

theorem failed_ne_ok {e : SolveError} {outcome : Outcome} (h : failed e = .ok outcome) :
    ∃ problem, outcome = .failure [problem] := by
  obtain ⟨problem, -, h⟩ := bind_eq_ok.1 h
  cases h
  exact ⟨problem, rfl⟩

theorem solve_eq_success {t : Topology} (h : solve settings p = .ok (.success t)) :
    ∃ s A, p.graph.solve p.lattice settings.solver = .ok s ∧ s.isConsistent = true ∧
      Assignment.ofSolution p.graph p.lattice s = .ok A ∧
      A.topology p.graph p.lattice settings.sourcePath = .ok t := by
  rw [solve] at h
  split at h
  · obtain ⟨_, h⟩ := failed_ne_ok h
    cases h
  · rename_i s hs
    split at h
    · rename_i hcons
      split at h
      · obtain ⟨_, h⟩ := failed_ne_ok h
        cases h
      · rename_i A hA
        obtain ⟨t', ht', h⟩ := bind_eq_ok.1 h
        cases h
        exact ⟨s, A, hs, hcons, hA, ht'⟩
    · obtain ⟨_, -, h⟩ := bind_eq_ok.1 h
      cases h

theorem explain_of_conflict {conflicts : List Conflict}
    (h : solve settings p = .ok (.conflict conflicts)) :
    ∃ s, p.graph.solve p.lattice settings.solver = .ok s ∧ s.isConsistent = false ∧
      explain p.graph p.lattice s settings.sourcePath = .ok conflicts := by
  rw [solve] at h
  split at h
  · obtain ⟨_, h⟩ := failed_ne_ok h
    cases h
  · rename_i s hs
    split at h
    · split at h
      · obtain ⟨_, h⟩ := failed_ne_ok h
        cases h
      · obtain ⟨_, -, h⟩ := bind_eq_ok.1 h
        cases h
    · rename_i hcons
      obtain ⟨explained, hexplained, h⟩ := bind_eq_ok.1 h
      cases h
      exact ⟨s, hs, Bool.not_eq_true _ ▸ hcons, hexplained⟩

theorem solve_eq_conflict {conflicts : List Conflict}
    (h : solve settings p = .ok (.conflict conflicts)) :
    ∃ s, p.graph.solve p.lattice settings.solver = .ok s ∧ s.isConsistent = false := by
  obtain ⟨s, hs, hcons, -⟩ := explain_of_conflict h
  exact ⟨s, hs, hcons⟩

end Analysis

/-- What has been checked of a prepared program. -/
structure Prepared.Valid (p : Prepared) : Prop where
  lawful : p.lattice.Lawful
  labels : p.graph.Over p.lattice
  closed : p.graph.Closed
  levels : 0 < p.graph.nodes.size → 0 < p.lattice.size
  located : ∀ (v : NodeId) (n : Node) place, p.graph.nodes[v]? = some n →
    n.location = some place → ∃ source, place = .ofSource source

theorem Analysis.valid_of_prepare {settings : AnalysisSettings} {program : Program} {p : Prepared}
    (h : prepare settings program = .ok (.ok p)) : p.Valid := by
  obtain ⟨hlattice, hlabels, hgraph, hlevels⟩ := prepare_eq_ok h
  have hreads := Graph.reads_ofProgram hgraph
  have hdecl : ∀ name x, .label name x ∈ Clause.ofProgram program.ir program.pdg p.labels →
      ∃ decl : ElementDecl, x = decl.label p.lattice ∧ decl.WellFormed p.lattice := fun name x hx =>
    LabelDecls.exists_decl_of_resolve hlabels (Clause.mem_ofProgram_label.1 hx)
  refine ⟨Lattice.build_lawful hlattice, hreads.over fun name x hx => ?_, hreads.edges.closed,
    hlevels, fun v n place hn hplace => ?_⟩
  · obtain ⟨decl, rfl, hwell⟩ := hdecl name x hx
    exact hwell.over_label
  · rcases hreads.nodes.located v n place hn hplace with hsource | ⟨x, hx, hloc⟩
    · exact hsource
    · obtain ⟨decl, rfl, -⟩ := hdecl n.name x hx
      obtain ⟨source, -, rfl⟩ := Option.map_eq_some_iff.1 hloc
      exact ⟨source, rfl⟩

/-- A check that is run on the solution of a program, and passes, shows that there is one. -/
theorem Analysis.exists_solution_of_any {settings : AnalysisSettings} {program : Program}
    {P : Prepared → Solution → Prop} [∀ p s, Decidable (P p s)]
    (h : (prepare settings program).toOption.any (fun r => r.toOption.any fun p =>
      (p.graph.solve p.lattice {}).toOption.any fun s => decide (P p s)) = true) :
    ∃ p s, prepare settings program = .ok (.ok p) ∧ p.graph.solve p.lattice {} = .ok s ∧
      P p s := by
  obtain ⟨r, hp, hr⟩ := exists_ok_of_any h
  obtain ⟨p, rfl, hsolve⟩ := exists_ok_of_any hr
  obtain ⟨s, hs, hcheck⟩ := exists_ok_of_any hsolve
  exact ⟨p, s, hp, hs, of_decide_eq_true hcheck⟩

end Enclave
