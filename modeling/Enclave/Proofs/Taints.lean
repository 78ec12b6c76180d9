import Enclave.Proofs.Reporting
import Enclave.Proofs.Soundness
import Enclave.Proofs.Twins

/-!
# Enclave.Proofs.Taints

What a partition owes to the taints of a function.

A return taint of one level is sent in place of the function's own level, along the edges that carry
data and nothing else. Where the same edge is also a call or a control dependence, what goes along
it is what is known of the function, and the return level only if it is among that.

* `returns_of_success`: which levels are checked along the edges that carry data, and
  `return_unchecked_beside_other_kinds`, where the return level is not one of them.
* `code_of_success`: a function runs at a level that its code taint lists if a level reached it. The
  default level is not held against code taints, and `default_outside_code_taint` is a partition in
  which it is none of the levels listed.
-/

namespace Enclave

/-- The levels that the end of an edge accepts when data leaves a function that returns `r`. -/
structure ChecksReturn (g : Graph) (l : Lattice) (s : Solution) (A : Assignment) (e : Edge)
    (r : Level) : Prop where
  /-- Data alone carries the return level, whether or not anything reaches the function. -/
  alone : e.kinds.isPureData = true → Accepts g l s A e r
  /-- Beside a call or a control dependence everything known of the function is carried. -/
  beside : e.kinds.isPureData = false → ∀ c, s.Holds e.source c → Accepts g l s A e c
  /-- That includes the level the function is assigned, if one reached it. -/
  own : e.kinds.isPureData = false → s.Reached e.source →
    ∃ c, A.level? e.source = some c ∧ Accepts g l s A e c

theorem Spread.Solved.checksReturn {g : Graph} {l : Lattice} {s : Solution} {A : Assignment}
    {e : Edge} {r : Level} (hcl : g.Closed) (hs : Solved g l g.components.flatten s)
    (hcons : s.isConsistent = true) (hA : Assignment.ofSolution g l s = .ok A)
    (he : e ∈ g.edges.toList) (hr : g.nodes[e.source]?.bind (·.singleReturn?) = some r) :
    ChecksReturn g l s A e r := by
  have hbeside : e.kinds.isPureData = false → ∀ c, s.Holds e.source c → Accepts g l s A e c := by
    intro hmixed c hc
    refine hs.accepts_of_holds hcl hcons hA he ?_ hc
    simp [hmixed]
  refine ⟨fun hpure => (hs.secure hcl hcons hA).returns e he hpure r hr, hbeside, ?_⟩
  intro hmixed hreached
  obtain ⟨t, hstate, ht, -⟩ := hs.exists_greatest hcons hreached
  exact ⟨t, Assignment.level?_of_state hA (hcl e he).1 hstate, hbeside hmixed t ht⟩

namespace ElementDecl

variable {l : Lattice} {decl : ElementDecl} {taint : TaintDecl} {codes : List String}

theorem exists_code (hwell : decl.WellFormed l) (htaint : decl.taint = some taint)
    (hcodes : taint.code = some codes) :
    ∃ set, (decl.label l).taint.bind (·.code) = some set ∧ set.toList ≠ [] ∧
      ∀ a, a ∈ set.toList ↔ ∃ m ∈ codes, l.lookup? m = some a := by
  obtain ⟨x, hx, hresolves⟩ := exists_of_some_rel (htaint ▸ hwell.resolves.taint)
  obtain ⟨set, hset, himage⟩ := exists_of_some_rel (hcodes ▸ hresolves.code)
  have hover := himage.over ((hwell.taint taint htaint).code codes hcodes).1
  refine ⟨set, by rw [hx, Option.bind_some, hset], hover.1, fun a => ⟨himage.named a, ?_⟩⟩
  rintro ⟨m, hm, hlookup⟩
  exact (himage.mem_iff hlookup).2 hm

theorem undecided_of_seed?_eq_none (hwell : decl.WellFormed l) (htaint : decl.taint = some taint)
    (hcodes : taint.code = some codes) (hseed : (decl.label l).seed? = none) :
    decl.level = none ∧ ∃ m ∈ codes, ∃ n ∈ codes, m ≠ n := by
  rw [Label.seed?, Option.or_eq_none_iff] at hseed
  obtain ⟨hlevel, hsingle⟩ := hseed
  constructor
  · cases hdecl : decl.level with
    | none => rfl
    | some m =>
      obtain ⟨a, ha, -⟩ := exists_of_some_rel (hdecl ▸ hwell.resolves.level)
      cases hlevel.symm.trans ha
  · obtain ⟨set, hset, hne, hmem⟩ := exists_code hwell htaint hcodes
    obtain ⟨t, ht, hcode⟩ := Option.bind_eq_some_iff.1 hset
    have hsome : set.single? = none := by
      rw [ht, Option.bind_some, Taint.singleCode?, hcode, Option.bind_some] at hsingle
      exact hsingle
    obtain ⟨a, ha, b, hb, hab⟩ := SortedSet.exists_ne_of_single?_eq_none hne hsome
    obtain ⟨m, hm, hma⟩ := (hmem a).1 ha
    obtain ⟨n, hn, hnb⟩ := (hmem b).1 hb
    refine ⟨m, hm, n, hn, ?_⟩
    rintro rfl
    exact hab (Option.some.inj (hma.symm.trans hnb))

end ElementDecl

namespace Analysis

theorem exists_node_of_function {settings : AnalysisSettings} {program : Program} {p : Prepared}
    {name : String} {decl : ElementDecl} (hp : prepare settings program = .ok (.ok p))
    (hdecl : (name, decl) ∈ program.labels.functions.toList) :
    decl.WellFormed p.lattice ∧ ∃ (v : NodeId) (n : Node),
      p.graph.nodes[v]? = some n ∧ n.name = name ∧ n.kind = .function ∧
        n.label = some (decl.label p.lattice) := by
  obtain ⟨-, hlabels, hgraph, -⟩ := prepare_eq_ok hp
  obtain ⟨hlabel, hwell⟩ := LabelDecls.function_of_resolve hlabels hdecl
  have hreads := Graph.reads_ofProgram hgraph
  have hclause : .label name (decl.label p.lattice) ∈
      Clause.ofProgram program.ir program.pdg p.labels := Clause.mem_ofProgram_label.2 (.inl hlabel)
  obtain ⟨v, n, hn, rfl, -⟩ := hreads.nodes.labelled name _ hclause
  exact ⟨hwell, v, n, hn, rfl,
    hreads.nodes.kind_eq hn (Clause.mem_ofProgram_function hlabel),
    hreads.nodes.label_eq hreads.oneLabel hn hclause⟩

/--
In every partition, for every function with one return level and every edge that carries data out of
it: over data alone the return level is taken as an argument or is below the level at the end of the
edge; beside other kinds the same holds of everything known of the function, whether or not the
return level is part of that.
-/
theorem returns_of_success {engine settings : AnalysisSettings} {program : Program} {p : Prepared}
    {t : Topology} (hp : prepare engine program = .ok (.ok p))
    (ht : solve settings p = .ok (.success t)) :
    ∃ s A, p.graph.solve p.lattice settings.solver = .ok s ∧
      Assignment.ofSolution p.graph p.lattice s = .ok A ∧
      A.topology p.graph p.lattice settings.sourcePath = .ok t ∧
      ∀ e ∈ p.graph.edges.toList, e.kinds.contains .data = true →
        ∀ r, p.graph.nodes[e.source]?.bind (·.singleReturn?) = some r →
          ChecksReturn p.graph p.lattice s A e r := by
  have hvalid := valid_of_prepare hp
  obtain ⟨s, A, hs, hcons, hA, htopology⟩ := solve_eq_success ht
  have hsolved := Graph.solved_of_solve hvalid.lawful hvalid.labels hvalid.closed hs
  exact ⟨s, A, hs, hA, htopology, fun e he _ r hr =>
    hsolved.checksReturn hvalid.closed hcons hA he hr⟩

/-- A function that runs in orange and returns purple to `g`, and what else there is of edges. -/
def returning (level : String) (flows : List FlowDecl) (calls : List CallDecl)
    (control : List FlowDecl) : Program where
  labels := {
    functions := .ofList [
      ("f", { level := some "orange", taint := some {
        returns := some ["purple"], arguments := some ["orange"], code := some ["orange"] } }),
      ("g", { level := some level })] }
  ir := { calls, defUse := ⟨"f", "g", none⟩ :: flows }
  pdg := { control }

/-- Data alone to `h`, and all three kinds to `g`, with orange below purple. -/
theorem returns_of_success_returning : ∃ settings p t,
    prepare settings (returning "purple" [⟨"f", "h", none⟩] [⟨"f", "g", none⟩]
      [⟨"f", "g", none⟩]) = .ok (.ok p) ∧
    solve settings p = .ok (.success t) ∧
    ∃ s A, p.graph.solve p.lattice settings.solver = .ok s ∧
      Assignment.ofSolution p.graph p.lattice s = .ok A ∧
      A.topology p.graph p.lattice settings.sourcePath = .ok t ∧
      ∀ e ∈ p.graph.edges.toList, e.kinds.contains .data = true →
        ∀ r, p.graph.nodes[e.source]?.bind (·.singleReturn?) = some r →
          ChecksReturn p.graph p.lattice s A e r := by
  let settings : AnalysisSettings := { lattice := { order := [("orange", "purple")] } }
  have hrun : (analyze settings (returning "purple" [⟨"f", "h", none⟩] [⟨"f", "g", none⟩]
      [⟨"f", "g", none⟩])).toOption.any (·.topology?.isSome) = true := by decide +kernel
  obtain ⟨o, ho, hsome⟩ := exists_ok_of_any hrun
  cases o with
  | success t =>
    obtain ⟨p, hp, ht⟩ := exists_prepared_of_success ho
    exact ⟨settings, p, t, hp, ht, returns_of_success hp ht⟩
  | conflict conflicts => cases hsome
  | failure problems => cases hsome

/--
Data alone brings purple to `g`, where it conflicts. With a call or a control dependence along the
same edge `f` sends its own orange instead, and there is a partition in which `g` neither takes
purple as an argument nor is at a level above it.
-/
theorem return_unchecked_beside_other_kinds :
    (analyze {} (returning "orange" [] [] [])).map (·.tag) = .ok "Conflict" ∧
    ∀ program ∈ [returning "orange" [] [⟨"f", "g", none⟩] [],
        returning "orange" [] [] [⟨"f", "g", none⟩]],
      ∃ p t s A, prepare {} program = .ok (.ok p) ∧ solve {} p = .ok (.success t) ∧
        p.graph.solve p.lattice {} = .ok s ∧ Assignment.ofSolution p.graph p.lattice s = .ok A ∧
        A.topology p.graph p.lattice "" = .ok t ∧
        ∃ e ∈ p.graph.edges.toList, e.kinds.contains .data = true ∧
          ∃ r, p.graph.nodes[e.source]?.bind (·.singleReturn?) = some r ∧ ¬ p.graph.Admits e r ∧
            ∃ b, A.level? e.target = some b ∧ p.lattice.dominatedBy r b = false := by
  refine ⟨by decide +kernel, ?_⟩
  have hrun : ∀ program ∈
      [returning "orange" [] [⟨"f", "g", none⟩] [], returning "orange" [] [] [⟨"f", "g", none⟩]],
      (prepare {} program).toOption.any (fun r => r.toOption.any fun p =>
        (solve {} p).toOption.any (·.topology?.isSome) &&
          (p.graph.solve p.lattice {}).toOption.all fun s =>
            (Assignment.ofSolution p.graph p.lattice s).toOption.all fun A =>
              p.graph.edges.toList.any fun e => e.kinds.contains .data &&
                (p.graph.nodes[e.source]?.bind (·.singleReturn?)).any fun r =>
                  !Spread.admits p.graph e r &&
                    (A.level? e.target).any fun b => !p.lattice.dominatedBy r b) = true := by
    decide +kernel
  intro program hprogram
  obtain ⟨r, hp, hr⟩ := exists_ok_of_any (hrun program hprogram)
  obtain ⟨p, rfl, hcheck⟩ := exists_ok_of_any hr
  rw [Bool.and_eq_true] at hcheck
  obtain ⟨o, ho, hsome⟩ := exists_ok_of_any hcheck.1
  cases o with
  | success t =>
    obtain ⟨s, A, hs, -, hA, ht⟩ := solve_eq_success ho
    have hslips := hcheck.2
    simp only [hs, hA, Except.toOption, Option.all_some, List.any_eq_true, Bool.and_eq_true,
      Option.any_eq_true, Bool.not_eq_true', Spread.admits_eq_false] at hslips
    exact ⟨p, t, s, A, hp, ho, hs, hA, ht, hslips⟩
  | conflict conflicts => cases hsome
  | failure problems => cases hsome

theorem mem_defaulted_iff {g : Graph} {l : Lattice} {s : Solution} {A : Assignment} {t : Topology}
    {sourcePath : String} {members : List NodeId} {v : NodeId} {n : Node} (hg : g.Distinct)
    (hs : Spread.Solved g l members s) (hcons : s.isConsistent = true)
    (hA : Assignment.ofSolution g l s = .ok A) (ht : A.topology g l sourcePath = .ok t)
    (hn : g.nodes[v]? = some n) (hkind : n.kind ≠ .callSite) :
    n.name ∈ t.defaulted ↔ ¬ s.Reached v := by
  rw [Assignment.mem_defaulted_topology ht]
  constructor
  · rintro ⟨u, hu, m, hm, hname, -⟩
    cases hg u v m n hm hn hname
    exact ((Assignment.mem_defaulted hs hcons hA).1 hu).2
  · intro hreached
    exact ⟨v, (Assignment.mem_defaulted hs hcons hA).2 ⟨Graph.lt_size hn, hreached⟩, n, hn, rfl,
      hkind⟩

/--
In every partition a function with a code taint is at a level that the taint lists, if any level
reached it. If none did, it is at the default level, whatever that is; and then it has no level of
its own, and its code taint lists more than one.
-/
theorem code_of_success {settings : AnalysisSettings} {program : Program} {t : Topology}
    {name : String} {decl : ElementDecl} {taint : TaintDecl} {codes : List String}
    (ht : analyze settings program = .ok (.success t))
    (hdecl : (name, decl) ∈ program.labels.functions.toList) (htaint : decl.taint = some taint)
    (hcodes : taint.code = some codes) :
    ∃ l a level, latticeFor settings program.labels = .ok l ∧ l.default = some a ∧
      t.levelOf? name = some level ∧
      (name ∉ t.defaulted → level ∈ codes) ∧
      (name ∈ t.defaulted → level = l.name a ∧ decl.level = none ∧
        ∃ m ∈ codes, ∃ n ∈ codes, m ≠ n) := by
  obtain ⟨p, hp, hsuccess⟩ := exists_prepared_of_success ht
  have hvalid := valid_of_prepare hp
  obtain ⟨s, A, hs, hcons, hA, htopology⟩ := solve_eq_success hsuccess
  have hsolved := Graph.solved_of_solve hvalid.lawful hvalid.labels hvalid.closed hs
  obtain ⟨hlattice, -, hgraph, -⟩ := prepare_eq_ok hp
  have hdistinct := (Graph.reads_ofProgram hgraph).nodes.distinct
  obtain ⟨hwell, v, n, hn, rfl, hkind, hlabel⟩ := exists_node_of_function hp hdecl
  have hv := Graph.lt_size hn
  obtain ⟨a, hdefault, -⟩ := hvalid.lawful.default (hvalid.levels (Nat.zero_lt_of_lt hv))
  obtain ⟨b, hb, -⟩ := Assignment.level?_ofSolution hA hv
  have hplace : n.kind ≠ .callSite := by simp [hkind]
  have hlisted := mem_defaulted_iff hdistinct hsolved hcons hA htopology hn hplace
  refine ⟨p.lattice, a, p.lattice.name b, hlattice, hdefault,
    (Assignment.levelOf?_topology hdistinct htopology).2 ⟨v, n, b, hn, rfl, hplace, hb, rfl⟩,
    fun hnot => ?_, fun hmem => ?_⟩
  · obtain ⟨set, hset, -, hmem⟩ := ElementDecl.exists_code hwell htaint hcodes
    have hcode : p.graph.nodes[v]?.bind (·.code?) = some set := by
      simpa [hn, Node.code?, Node.taint?, hlabel] using hset
    have hreached : s.Reached v := by
      rwa [hlisted, not_not] at hnot
    obtain ⟨c, hc, hin⟩ := (hsolved.secure hvalid.closed hcons hA).bodies v set hreached hcode
    cases hb.symm.trans hc
    obtain ⟨m, hm, hlookup⟩ := (hmem b).1 hin
    rwa [Lattice.name_of_lookup? hlookup]
  · rw [hlisted] at hmem
    have hlevel := Assignment.level?_of_unreached hsolved hA hv hmem
    cases hb.symm.trans (hlevel.trans hdefault)
    refine ⟨rfl, ElementDecl.undecided_of_seed?_eq_none hwell htaint hcodes ?_⟩
    -- a seed would have reached the node
    rw [Option.eq_none_iff_forall_ne_some]
    intro c hc
    have hseed : p.graph.nodes[v]?.bind (·.seed?) = some c := by
      simpa [hn, Node.seed?, hlabel] using hc
    exact hmem ⟨c, hsolved.seeds v ((Graph.mem_flatten_components hvalid.closed).2 hv) c hseed⟩

/-- A function with a choice of levels for its body, and what reaches it. -/
def choosing (flows : List FlowDecl) : Program where
  labels := {
    levels := some ["a", "b", "c"]
    functions := .ofList [
      ("source", { level := some "b" }),
      ("f", { taint := some { code := some ["b", "c"] } })] }
  ir := { defUse := flows }

theorem code_of_success_choosing : ∃ t l a level,
    analyze {} (choosing [⟨"source", "f", none⟩]) = .ok (.success t) ∧
    latticeFor {} (choosing [⟨"source", "f", none⟩]).labels = .ok l ∧ l.default = some a ∧
    t.levelOf? "f" = some level ∧ level ∈ ["b", "c"] := by
  have hrun : (analyze {} (choosing [⟨"source", "f", none⟩])).toOption.any (fun o =>
      o.topology?.any fun t => "f" ∉ t.defaulted) = true := by decide +kernel
  obtain ⟨o, ho, hcheck⟩ := exists_ok_of_any hrun
  cases o with
  | success t =>
    have hdecl : ("f", { taint := some { code := some ["b", "c"] } }) ∈
        (choosing [⟨"source", "f", none⟩]).labels.functions.toList := by decide +kernel
    obtain ⟨l, a, level, hl, ha, hlevel, hcode, -⟩ := code_of_success ho hdecl rfl rfl
    exact ⟨t, l, a, level, ho, hl, ha, hlevel, hcode (by simpa [Outcome.topology?] using hcheck)⟩
  | conflict conflicts => cases hcheck
  | failure problems => cases hcheck

/-- Nothing reaches `f`, so it is put at `a`, which is the default and not a level of its code. -/
theorem default_outside_code_taint :
    (analyze {} (choosing [])).map (fun o => o.topology?.map fun t =>
      (t.levelOf? "f", t.defaulted)) = .ok (some (some "a", ["f"])) := by
  decide +kernel

end Analysis

end Enclave
