import Enclave.Proofs.Admissible
import Enclave.Proofs.Depiction
import Enclave.Proofs.Representation

/-!
# Enclave.Proofs.Clashes

Names that a program declares with two kinds. The parts of a program are entered into its graph one
after another, and a name keeps the kind with which it was entered first: whatever is entered with
another kind is noted as an error (`Graph.Enters`). So of a name that two parts declare with
different kinds, one of the two is noted (`Draft.Settled.clash`), and nothing that follows takes an
error back.

* `clashes_of_contested`: the problems of a program whose labels are free of errors name every clash
  between its declarations and its labels; where a label is in error, the labels are left out of the
  graph, and with them every such clash.
* `clash_lost_with_label_error`: a name declared as a global and labelled as a function, which is
  not reported.
-/

namespace Enclave

namespace Graph

variable {g g' : Graph} {name : String} {kind other : NodeKind} {v : NodeId}

theorem Grows.idOf? (hg : g.Grows g') (h : g.idOf? name = some v) : g'.idOf? name = some v := by
  obtain ⟨hv, hname, hbefore⟩ := Array.findIdx?_eq_some_iff_getElem.1 h
  have hkeeps : ∀ (u : NodeId) (hu : u < g.nodes.size),
      ∃ hu' : u < g'.nodes.size, g'.nodes[u].name = g.nodes[u].name := by
    intro u hu
    obtain ⟨n, hn, hsame, -⟩ := hg.nodes u g.nodes[u] (Array.getElem?_eq_getElem hu)
    obtain ⟨hu', rfl⟩ := Array.getElem?_eq_some_iff.1 hn
    exact ⟨hu', hsame⟩
  obtain ⟨hv', hsame⟩ := hkeeps v hv
  refine Array.findIdx?_eq_some_iff_getElem.2 ⟨hv', by rwa [hsame], fun u hu => ?_⟩
  obtain ⟨_, hsame'⟩ := hkeeps u (Nat.lt_trans hu hv)
  rw [hsame']
  exact hbefore u hu

theorem hasKind_iff : g.HasKind name kind ↔
    ∃ v n, g.idOf? name = some v ∧ g.nodes[v]? = some n ∧ n.kind = kind := by
  unfold HasKind node?
  simp only [Option.bind_eq_some_iff]
  constructor
  · rintro ⟨n, ⟨v, hv, hn⟩, hkind⟩
    exact ⟨v, n, hv, hn, hkind⟩
  · rintro ⟨v, n, hv, hn, hkind⟩
    exact ⟨n, ⟨v, hv, hn⟩, hkind⟩

theorem HasKind.mono (hg : g.Grows g') (h : g.HasKind name kind) : g'.HasKind name kind := by
  obtain ⟨v, n, hv, hn, hkind⟩ := hasKind_iff.1 h
  obtain ⟨n', hn', -, hkind'⟩ := hg.nodes v n hn
  exact hasKind_iff.2 ⟨v, n', hg.idOf? hv, hn', hkind'.trans hkind⟩

theorem HasKind.unique (h : g.HasKind name kind) (h' : g.HasKind name other) : kind = other := by
  obtain ⟨n, hn, hkind⟩ := h
  obtain ⟨n', hn', hkind'⟩ := h'
  cases Option.some.inj (hn.symm.trans hn')
  exact hkind.symm.trans hkind'

/-- What entering a name with a kind comes to: it has the kind from then on, or it has another. -/
inductive Enters (g : Graph) (name : String) (kind : NodeKind) : Except GraphError Graph → Prop
  | entered {g' : Graph} : g.Grows g' → g'.HasKind name kind → Enters g name kind (.ok g')
  | refused {existing : NodeKind} : existing ≠ kind →
      Enters g name kind (.error (.conflictingKind name existing kind))

theorem hasKind_addNode (h : g.idOf? name = none) : (g.addNode name kind).1.HasKind name kind := by
  have hlast : (g.addNode name kind).1.nodes[g.nodes.size]? = some { name, kind } :=
    getElem?_addNode.2 (.inr ⟨rfl, rfl⟩)
  cases hid : (g.addNode name kind).1.idOf? name with
  | none => exact absurd rfl (ne_of_idOf?_eq_none hid hlast)
  | some v =>
    obtain ⟨n, hn, hname⟩ := getElem?_of_idOf? hid
    rcases getElem?_addNode.1 hn with hold | ⟨-, rfl⟩
    · exact absurd hname (ne_of_idOf?_eq_none h hold)
    · exact hasKind_iff.2 ⟨v, _, hid, hn, rfl⟩

theorem enters_of_ensure {k : Graph → Except GraphError Graph}
    (hk : ∀ g₁ : Graph, g₁.HasKind name kind → ∃ g', k g₁ = .ok g' ∧ g₁.Grows g') :
    g.Enters name kind (g.ensure name kind >>= fun r => k r.1) := by
  have hdone : ∀ g₁ : Graph, g.Grows g₁ → g₁.HasKind name kind → g.Enters name kind (k g₁) := by
    intro g₁ hgrows hkind
    obtain ⟨g', hok, hgrows'⟩ := hk g₁ hkind
    rw [hok]
    exact .entered (hgrows.trans hgrows') (hkind.mono hgrows')
  unfold ensure
  cases hid : g.idOf? name with
  | none => exact hdone _ (Edits.refl.node hid).grows (hasKind_addNode hid)
  | some v =>
    obtain ⟨n, hn, -⟩ := getElem?_of_idOf? hid
    simp only [hn]
    by_cases hkind : n.kind = kind
    · rw [if_pos hkind]
      exact hdone g (.refl g) (hasKind_iff.2 ⟨v, n, hid, hn, hkind⟩)
    · rw [if_neg hkind]
      exact .refused hkind

theorem exists_touched {f : Node → Node} (h : g.HasKind name kind)
    (hname : ∀ n, (f n).name = n.name) (hkind : ∀ n, (f n).kind = n.kind) :
    ∃ g', (do return g.modifyNode (← g.find name) f) = (.ok g' : Except GraphError Graph) ∧
      g.Grows g' := by
  obtain ⟨v, n, hid, -, -⟩ := hasKind_iff.1 h
  refine ⟨g.modifyNode v f, ?_, (Edits.refl.touch hname hkind).grows⟩
  rw [find, hid]
  rfl

theorem enters_declare (g : Graph) (kind : NodeKind) (d : Declaration) :
    g.Enters d.name kind (g.declare kind d) := by
  unfold declare
  cases d.location with
  | none => exact enters_of_ensure (k := .ok) fun g₁ _ => ⟨g₁, rfl, .refl g₁⟩
  | some source =>
    exact enters_of_ensure (k := fun g₁ => g₁.locate d.name (.ofSource source)) fun _ hg₁ =>
      exists_touched hg₁ (fun _ => rfl) fun _ => rfl

theorem enters_addLabelled (g : Graph) (kind : NodeKind) (entry : String × Label) :
    g.Enters entry.1 kind (g.addLabelled kind entry) :=
  enters_of_ensure (k := fun g₁ => g₁.attach entry.1 entry.2) fun _ hg₁ =>
    exists_touched hg₁ (fun _ => rfl) fun _ => rfl

end Graph

namespace Draft

variable {β : Type} {d d' d'' : Draft} {name : String} {kind other : NodeKind}

/-- The draft is taken further: nothing that was entered or noted is taken back. -/
structure Grows (d d' : Draft) : Prop where
  graph : d.graph.Grows d'.graph
  errors : d.errors ⊆ d'.errors

/-- The name has the kind, or it was refused it. -/
def Settled (d : Draft) (name : String) (kind : NodeKind) : Prop :=
  d.graph.HasKind name kind ∨
    ∃ existing, existing ≠ kind ∧ .conflictingKind name existing kind ∈ d.errors

theorem Grows.refl (d : Draft) : d.Grows d := ⟨.refl _, List.Subset.refl _⟩

theorem Grows.trans (h : d.Grows d') (h' : d'.Grows d'') : d.Grows d'' :=
  ⟨h.graph.trans h'.graph, List.Subset.trans h.errors h'.errors⟩

theorem Settled.mono (hd : d.Grows d') (h : d.Settled name kind) : d'.Settled name kind := by
  rcases h with h | ⟨existing, hne, h⟩
  · exact .inl (h.mono hd.graph)
  · exact .inr ⟨existing, hne, hd.errors h⟩

theorem Settled.clash (h : d.Settled name kind) (h' : d.Settled name other) (hne : kind ≠ other) :
    ∃ existing requested, existing ≠ requested ∧
      .conflictingKind name existing requested ∈ d.errors := by
  rcases h with h | ⟨existing, hother, h⟩
  · rcases h' with h' | ⟨existing, hother, h'⟩
    · exact absurd (h.unique h') hne
    · exact ⟨existing, other, hother, h'⟩
  · exact ⟨existing, kind, hother, h⟩

theorem settled_follow {x : Except GraphError Graph} (hx : d.graph.Enters name kind x) :
    d.Grows (d.follow x) ∧ (d.follow x).Settled name kind := by
  cases hx with
  | entered hgrows hkind => exact ⟨⟨hgrows, List.Subset.refl _⟩, .inl hkind⟩
  | @refused existing hne =>
    refine ⟨⟨.refl _, List.subset_append_left _ _⟩, .inr ⟨existing, hne, ?_⟩⟩
    exact List.mem_append_right _ List.mem_cons_self

theorem settled_foldl {f : Draft → β → Draft} {t : Graph → β → Except GraphError Graph}
    {key : β → String} (hf : ∀ d b, f d b = d.follow (t d.graph b))
    (ht : ∀ (g : Graph) b, g.Enters (key b) kind (t g b)) (bs : List β) :
    ∀ d : Draft, d.Grows (bs.foldl f d) ∧ ∀ b ∈ bs, (bs.foldl f d).Settled (key b) kind := by
  induction bs with
  | nil =>
    intro d
    exact ⟨.refl d, fun b hb => absurd hb List.not_mem_nil⟩
  | cons b bs ih =>
    intro d
    obtain ⟨hgrows, hsettled⟩ := settled_follow (ht d.graph b)
    rw [← hf] at hgrows hsettled
    obtain ⟨hrest, hall⟩ := ih (f d b)
    rw [List.foldl_cons]
    refine ⟨hgrows.trans hrest, fun c hc => ?_⟩
    rcases List.mem_cons.1 hc with rfl | hc
    · exact hsettled.mono hrest
    · exact hall c hc

theorem settled_declare (kind : NodeKind) (ds : List Declaration) (d : Draft) :
    d.Grows (ds.foldl (declare kind) d) ∧
      ∀ decl ∈ ds, (ds.foldl (declare kind) d).Settled decl.name kind :=
  settled_foldl (fun _ _ => rfl) (fun g decl => g.enters_declare kind decl) ds d

theorem settled_addLabelled (kind : NodeKind) (es : List (String × Label)) (d : Draft) :
    d.Grows (es.foldl (addLabelled kind) d) ∧
      ∀ entry ∈ es, (es.foldl (addLabelled kind) d).Settled entry.1 kind :=
  settled_foldl (fun _ _ => rfl) (fun g entry => g.enters_addLabelled kind entry) es d

end Draft

namespace Graph

variable {ir : IrFacts} {pdg : PdgFacts} {labels : Labels} {name : String}

/-- Every name that a program declares or labels is settled with the kind it is given there. -/
theorem settled_declared (ir : IrFacts) (labels : Labels) :
    (∀ d ∈ ir.functions, (declared ir labels).Settled d.name .function) ∧
      (∀ d ∈ ir.globals, (declared ir labels).Settled d.name .global) ∧
      (∀ e ∈ labels.functions.toList, (declared ir labels).Settled e.1 .function) ∧
      ∀ e ∈ labels.globals.toList, (declared ir labels).Settled e.1 .global := by
  let d₁ : Draft := ir.functions.foldl (Draft.declare .function) {}
  let d₂ : Draft := ir.globals.foldl (Draft.declare .global) d₁
  let d₃ : Draft := labels.functions.toList.foldl (Draft.addLabelled .function) d₂
  obtain ⟨-, hfunctions⟩ := Draft.settled_declare .function ir.functions {}
  obtain ⟨hgrows₂, hglobals⟩ := Draft.settled_declare .global ir.globals d₁
  obtain ⟨hgrows₃, hlabelled⟩ := Draft.settled_addLabelled .function labels.functions.toList d₂
  obtain ⟨hgrows₄, hlabels⟩ := Draft.settled_addLabelled .global labels.globals.toList d₃
  refine ⟨fun d hd => ?_, fun d hd => ?_, fun e he => ?_, hlabels⟩
  · exact (hfunctions d hd).mono ((hgrows₂.trans hgrows₃).trans hgrows₄)
  · exact (hglobals d hd).mono (hgrows₃.trans hgrows₄)
  · exact (hlabelled e he).mono hgrows₄

end Graph

/-- The program declares the name with one kind and labels it with the other. -/
def Program.Contested (p : Program) (name : String) : Prop :=
  (name ∈ p.ir.globals.map (·.name) ∧ name ∈ p.labels.functions.toList.map (·.1)) ∨
    (name ∈ p.ir.functions.map (·.name) ∧ name ∈ p.labels.globals.toList.map (·.1))

instance (p : Program) (name : String) : Decidable (p.Contested name) :=
  inferInstanceAs (Decidable (_ ∨ _))

namespace LabelDecls

variable {l : Lattice} {decls : LabelDecls}

theorem resolve_cases (l : Lattice) (decls : LabelDecls) :
    (decls.errors l = [] ∧ ∃ labels, decls.resolve l = .ok labels ∧
      labels.functions.toList.map (·.1) = decls.functions.toList.map (·.1) ∧
      labels.globals.toList.map (·.1) = decls.globals.toList.map (·.1)) ∨
    (decls.errors l ≠ [] ∧ decls.resolve l = .error (decls.errors l)) := by
  rw [resolve]
  cases herrors : decls.errors l with
  | nil =>
    refine .inl ⟨rfl, _, rfl, ?_, ?_⟩
    · simp [SortedMap.mapValues]
    · simp [SortedMap.mapValues]
  | cons e errors => exact .inr ⟨List.cons_ne_nil _ _, rfl⟩

end LabelDecls

namespace Analysis

variable {settings : AnalysisSettings} {p : Program} {l : Lattice} {name : String}

theorem prepareWith_of_label_errors (hl : p.labels.resolve l = .error (p.labels.errors l))
    (hne : p.labels.errors l ≠ []) {r : Except (List GraphError) Graph}
    (hr : Graph.ofProgram p.ir p.pdg {} = .ok r) :
    ∃ clashes : List GraphError,
      prepareWith l p = .ok (.error
        ((p.labels.errors l).map (·.problem) ++ clashes.map (·.problem))) ∧
      (r = .error clashes ∨ clashes = [] ∧ ∃ g, r = .ok g) := by
  have hlabels : (Except.toOption (.error (p.labels.errors l) : Except _ Labels)).getD {} = {} :=
    rfl
  rw [prepareWith, hl]
  dsimp only
  rw [hlabels, hr, ok_bind]
  cases r with
  | error errors => exact ⟨errors, rfl, .inl rfl⟩
  | ok g =>
    refine ⟨[], ?_, .inr ⟨rfl, g, rfl⟩⟩
    rw [List.map_nil, List.append_nil]
    cases herrors : p.labels.errors l with
    | nil => exact absurd herrors hne
    | cons e errors => rfl

theorem prepareWith_of_graph_errors {labels : Labels} (hl : p.labels.resolve l = .ok labels)
    {errors : List GraphError} (hr : Graph.ofProgram p.ir p.pdg labels = .ok (.error errors)) :
    prepareWith l p = .ok (.error (errors.map (·.problem))) := by
  have hlabels : (Except.toOption (.ok labels : Except (List LabelError) Labels)).getD {} =
      labels :=
    rfl
  rw [prepareWith, hl]
  dsimp only
  rw [hlabels, hr, ok_bind]
  rfl

theorem exists_clash_of_contested {labels : Labels} (h : p.Contested name)
    (hfunctions : labels.functions.toList.map (·.1) = p.labels.functions.toList.map (·.1))
    (hglobals : labels.globals.toList.map (·.1) = p.labels.globals.toList.map (·.1)) :
    ∃ existing requested, existing ≠ requested ∧
      .conflictingKind name existing requested ∈ (Graph.declared p.ir labels).errors := by
  obtain ⟨hfun, hglob, hlabelled, hlabels⟩ := Graph.settled_declared p.ir labels
  rcases h with ⟨hdecl, hlabel⟩ | ⟨hdecl, hlabel⟩
  · rw [← hfunctions] at hlabel
    obtain ⟨d, hd, rfl⟩ := List.mem_map.1 hdecl
    obtain ⟨e, he, hname⟩ := List.mem_map.1 hlabel
    have hsettled := hlabelled e he
    rw [hname] at hsettled
    exact (hglob d hd).clash hsettled (by decide)
  · rw [← hglobals] at hlabel
    obtain ⟨d, hd, rfl⟩ := List.mem_map.1 hdecl
    obtain ⟨e, he, hname⟩ := List.mem_map.1 hlabel
    have hsettled := hlabels e he
    rw [hname] at hsettled
    exact (hfun d hd).clash hsettled (by decide)

/--
A program with a name that it declares with one kind and labels with the other is refused, if its
lattice can be built and no call is on the last line of all. All errors of its labels are among its
problems. If there are none, so is a clash of kinds for the name; if there are, the clashes are
those of the program without its labels.
-/
theorem clashes_of_contested (hl : latticeFor settings p.labels = .ok l)
    (hcalls : ∀ c ∈ p.ir.calls, ∀ file range, c.site = some (.range file range) →
      range.start.line ≠ 4294967295)
    (hname : p.Contested name) :
    ∃ clashes : List GraphError,
      prepare settings p = .ok (.error
        ((p.labels.errors l).map (·.problem) ++ clashes.map (·.problem))) ∧
      (p.labels.errors l = [] → ∃ existing requested, existing ≠ requested ∧
        .conflictingKind name existing requested ∈ clashes) ∧
      (p.labels.errors l ≠ [] → Graph.ofProgram p.ir p.pdg {} = .ok (.error clashes) ∨
        clashes = [] ∧ ∃ g, Graph.ofProgram p.ir p.pdg {} = .ok (.ok g)) := by
  have hsites : ∀ c ∈ p.ir.calls, ∀ source, c.site = some source →
      (Location.ofSource source).Numbered := by
    intro c hc source hsource
    refine Location.numbered_ofSource fun file range heq => ?_
    subst heq
    exact hcalls c hc file range hsource
  have hprepare : prepare settings p = prepareWith l p := by
    rw [prepare, hl]
  rw [hprepare]
  rcases p.labels.resolve_cases l with ⟨hnone, labels, hlabels, hfun, hglob⟩ | ⟨hsome, hlabels⟩
  · obtain ⟨existing, requested, hne, hclash⟩ := exists_clash_of_contested hname hfun hglob
    obtain ⟨r, hr, hreasons⟩ := Graph.exists_ofProgram p.pdg labels hsites
    obtain ⟨errors, rfl, hmem⟩ := hreasons _ hclash
    refine ⟨errors, ?_, fun _ => ⟨existing, requested, hne, hmem⟩, fun h => absurd hnone h⟩
    rw [prepareWith_of_graph_errors hlabels hr, hnone]
    rfl
  · obtain ⟨r, hr, -⟩ := Graph.exists_ofProgram p.pdg {} hsites
    obtain ⟨clashes, hproblems, hcases⟩ := prepareWith_of_label_errors hlabels hsome hr
    refine ⟨clashes, hproblems, fun h => absurd h hsome, fun _ => ?_⟩
    rw [hr]
    rcases hcases with rfl | ⟨hempty, g, rfl⟩
    · exact .inl rfl
    · exact .inr ⟨hempty, g, rfl⟩

/-- A global and a function of one name, with a level for it and calls. -/
def doubled (level : String) (calls : List CallDecl) : Program where
  labels := {
    levels := some ["p"]
    functions := .ofList [("x", { level := some level })] }
  ir := { globals := [⟨"x", none⟩], calls }

def lateCall : CallDecl := ⟨"main", "x", some (.range "o.c" ⟨⟨4294967294, 0⟩, ⟨4294967295, 9⟩⟩)⟩

theorem clashes_of_contested_doubled : ∃ (l : Lattice) (clashes : List GraphError)
    (existing requested : NodeKind),
    latticeFor {} (doubled "p" [lateCall]).labels = .ok l ∧
    (∀ c ∈ [lateCall], ∀ file range, c.site = some (.range file range) →
      range.start.line ≠ 4294967295) ∧
    (doubled "p" [lateCall]).Contested "x" ∧ (doubled "p" [lateCall]).labels.errors l = [] ∧
    prepare {} (doubled "p" [lateCall]) = .ok (.error (clashes.map (·.problem))) ∧
    .conflictingKind "x" existing requested ∈ clashes := by
  have hrun : (latticeFor {} (doubled "p" [lateCall]).labels).toOption.any
      (fun l => decide ((doubled "p" [lateCall]).labels.errors l = [])) = true := by
    decide +kernel
  obtain ⟨l, hl, hcheck⟩ := exists_ok_of_any hrun
  have hnone := of_decide_eq_true hcheck
  have hcalls : ∀ c ∈ [lateCall], ∀ file range, c.site = some (.range file range) →
      range.start.line ≠ 4294967295 := by
    intro c hc file range hsite
    cases List.mem_singleton.1 hc
    cases hsite
    decide
  have hname : (doubled "p" [lateCall]).Contested "x" := by decide +kernel
  obtain ⟨clashes, hprepare, hclash, -⟩ := clashes_of_contested hl hcalls hname
  obtain ⟨existing, requested, -, hmem⟩ := hclash hnone
  rw [hnone] at hprepare
  exact ⟨l, clashes, existing, requested, hl, hcalls, hname, hnone, hprepare, hmem⟩

/-- The level `q` of the function is not known, and nothing is said of the global. -/
theorem clash_lost_with_label_error : (doubled "q" []).Contested "x" ∧
    prepare {} (doubled "q" []) =
      .ok (.error [(LabelError.unknownLevel .function "x" "q").problem]) := by
  constructor
  · decide +kernel
  · decide +kernel

end Analysis

end Enclave
