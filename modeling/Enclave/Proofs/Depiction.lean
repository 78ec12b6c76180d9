import Enclave.Proofs.Representation
import Enclave.Proofs.Twins

/-!
# Enclave.Proofs.Depiction

The graph of a program against the program itself. Declarations, labels, calls and dependences may
speak of the same names, in any order and any number of times; what the graph shows of a name, or
between two names, is what some part of the program says about them, and all that is said is shown.

* `depicts_ofProgram`: a graph that was built depicts the program it was built from.
-/

namespace Enclave

namespace CallDecl

/-- The call is made at a known place, for which there is a node of this name. -/
def At (c : CallDecl) (name : String) : Prop :=
  ∃ site, c.site = some site ∧ Graph.siteName c.caller c.callee (.ofSource site) = .ok name

/-- What a call puts between two names: at a known place it goes by the node for that place. -/
def Links (c : CallDecl) (a b : String) : Prop :=
  (c.site = none ∧ c.caller = a ∧ c.callee = b) ∨ (c.caller = a ∧ c.At b) ∨ (c.At a ∧ c.callee = b)

end CallDecl

namespace Clause

variable {ir : IrFacts} {pdg : PdgFacts} {labels : Labels} {name a b : String}

theorem mem_ofLink_edge {a' b' : String} {k k' : DependenceKind} :
    .edge a b k ∈ ofLink a' b' k' ↔ k = k' ∧ a' = a ∧ b' = b := by
  simp only [ofLink, List.mem_cons, edge.injEq, reduceCtorEq, List.not_mem_nil, or_false]
  constructor
  · rintro ⟨rfl, rfl, rfl⟩
    exact ⟨rfl, rfl, rfl⟩
  · rintro ⟨rfl, rfl, rfl⟩
    exact ⟨rfl, rfl, rfl⟩

theorem mem_ofLink_mention {k : DependenceKind} :
    .mention name ∈ ofLink a b k ↔ a = name ∨ b = name := by
  simp only [ofLink, List.mem_cons, mention.injEq, reduceCtorEq, List.not_mem_nil, or_false,
    false_or]
  constructor
  · rintro (rfl | rfl)
    · exact .inr rfl
    · exact .inl rfl
  · rintro (rfl | rfl)
    · exact .inr rfl
    · exact .inl rfl

theorem mem_ofLink_node {k : DependenceKind} {kind : NodeKind} :
    .node name kind ∉ ofLink a b k := by
  simp [ofLink]

theorem ofCall_of_at {c : CallDecl} (h : c.At name) :
    ofCall c = ofLink name c.callee .call ++ (ofLink c.caller name .call ++
      [.mention name, .node name .callSite]) := by
  obtain ⟨site, hsite, hname⟩ := h
  simp only [ofCall, hsite, hname]

theorem ofCall_cases (c : CallDecl) :
    (c.site = none ∧ ofCall c = ofLink c.caller c.callee .call) ∨ (∃ name, c.At name) ∨
      ((∀ name, ¬ c.At name) ∧ c.site ≠ none ∧ ofCall c = []) := by
  cases hsite : c.site with
  | none => exact .inl ⟨rfl, by simp only [ofCall, hsite]⟩
  | some site =>
    cases hname : Graph.siteName c.caller c.callee (.ofSource site) with
    | ok name => exact .inr (.inl ⟨name, site, hsite, hname⟩)
    | error e =>
      refine .inr (.inr ⟨?_, by simp, by simp only [ofCall, hsite, hname]⟩)
      rintro name ⟨site', hsite', hname'⟩
      cases hsite.symm.trans hsite'
      rw [hname] at hname'
      cases hname'

theorem at_unique {c : CallDecl} (h : c.At a) (h' : c.At b) : a = b := by
  obtain ⟨site, hsite, hname⟩ := h
  obtain ⟨site', hsite', hname'⟩ := h'
  cases hsite.symm.trans hsite'
  exact Except.ok.inj (hname.symm.trans hname')

theorem not_at_of_none {c : CallDecl} (h : c.site = none) : ¬ c.At name := by
  rintro ⟨site, hsite, -⟩
  rw [h] at hsite
  cases hsite

theorem mem_ofCall_edge {c : CallDecl} {k : DependenceKind} :
    .edge a b k ∈ ofCall c ↔ k = .call ∧ c.Links a b := by
  unfold CallDecl.Links
  rcases ofCall_cases c with ⟨hnone, hclauses⟩ | ⟨name, hat⟩ | ⟨hnot, hsome, hclauses⟩
  · rw [hclauses, mem_ofLink_edge]
    simp [hnone, not_at_of_none hnone]
  · have hsite : c.site ≠ none := fun hnone => not_at_of_none hnone hat
    have hname : ∀ other, c.At other ↔ name = other :=
      fun other => ⟨at_unique hat, fun h => h ▸ hat⟩
    rw [ofCall_of_at hat]
    simp only [List.mem_append, mem_ofLink_edge, List.mem_cons, reduceCtorEq, List.not_mem_nil,
      or_false, hsite, false_and, false_or, hname]
    tauto
  · rw [hclauses]
    simp [hnot, hsome]

theorem mem_ofCall_node {c : CallDecl} {kind : NodeKind} :
    .node name kind ∈ ofCall c ↔ kind = .callSite ∧ c.At name := by
  rcases ofCall_cases c with ⟨hnone, hclauses⟩ | ⟨site, hat⟩ | ⟨hnot, -, hclauses⟩
  · rw [hclauses]
    simp [mem_ofLink_node, not_at_of_none hnone]
  · have hname : c.At name ↔ name = site := ⟨fun h => at_unique h hat, fun h => h ▸ hat⟩
    rw [ofCall_of_at hat, hname]
    simp [mem_ofLink_node, and_comm]
  · rw [hclauses]
    simp [hnot]

theorem mem_ofCall_mention {c : CallDecl} (h : .mention name ∈ ofCall c) :
    c.caller = name ∨ c.callee = name ∨ c.At name := by
  rcases ofCall_cases c with ⟨-, hclauses⟩ | ⟨site, hat⟩ | ⟨-, -, hclauses⟩
  · rw [hclauses, mem_ofLink_mention] at h
    tauto
  · rw [ofCall_of_at hat] at h
    simp only [List.mem_append, mem_ofLink_mention, List.mem_cons, mention.injEq, reduceCtorEq,
      List.not_mem_nil, or_false] at h
    rcases h with (rfl | h) | (h | rfl) | rfl
    · exact .inr (.inr hat)
    · exact .inr (.inl h)
    · exact .inl h
    · exact .inr (.inr hat)
    · exact .inr (.inr hat)
  · rw [hclauses] at h
    cases h

theorem mem_ofProgram_edge {k : DependenceKind} : .edge a b k ∈ ofProgram ir pdg labels ↔
    (k = .control ∧ ∃ f ∈ pdg.control, f.source = a ∧ f.target = b) ∨
      (k = .data ∧ ∃ f ∈ ir.defUse, f.source = a ∧ f.target = b) ∨
      (k = .call ∧ ∃ c ∈ ir.calls, c.Links a b) := by
  have hflow : ∀ (k' : DependenceKind) (fs : List FlowDecl),
      .edge a b k ∈ fs.flatMap (ofFlow k') ↔
        k = k' ∧ ∃ f ∈ fs, f.source = a ∧ f.target = b := by
    intro k' fs
    simp only [List.mem_flatMap, ofFlow, mem_ofLink_edge]
    tauto
  have hcalls : .edge a b k ∈ ir.calls.flatMap ofCall ↔
      k = .call ∧ ∃ c ∈ ir.calls, c.Links a b := by
    simp only [List.mem_flatMap, mem_ofCall_edge]
    tauto
  simp only [ofProgram, List.mem_append, hflow, hcalls]
  simp [ofLabel, ofDeclaration]

theorem mem_ofProgram_node {kind : NodeKind} : .node name kind ∈ ofProgram ir pdg labels ↔
    (kind = .function ∧
      ((∃ d ∈ ir.functions, d.name = name) ∨ ∃ x, (name, x) ∈ labels.functions.toList)) ∨
    (kind = .global ∧
      ((∃ d ∈ ir.globals, d.name = name) ∨ ∃ x, (name, x) ∈ labels.globals.toList)) ∨
    (kind = .callSite ∧ ∃ c ∈ ir.calls, c.At name) := by
  have hflow : ∀ (k : DependenceKind) (fs : List FlowDecl),
      .node name kind ∉ fs.flatMap (ofFlow k) := by
    simp [List.mem_flatMap, ofFlow, mem_ofLink_node]
  have hcalls : .node name kind ∈ ir.calls.flatMap ofCall ↔
      kind = .callSite ∧ ∃ c ∈ ir.calls, c.At name := by
    simp only [List.mem_flatMap, mem_ofCall_node]
    tauto
  have hlabels : ∀ (k : NodeKind) (m : SortedMap String Label),
      .node name kind ∈ m.toList.flatMap (ofLabel k) ↔ kind = k ∧ ∃ x, (name, x) ∈ m.toList := by
    intro k m
    simp only [List.mem_flatMap, ofLabel, List.mem_cons, reduceCtorEq, node.injEq, false_or,
      List.not_mem_nil, or_false]
    constructor
    · rintro ⟨⟨n, x⟩, hx, rfl, rfl⟩
      exact ⟨rfl, x, hx⟩
    · rintro ⟨rfl, x, hx⟩
      exact ⟨_, hx, rfl, rfl⟩
  have hdeclared : ∀ (k : NodeKind) (ds : List Declaration),
      .node name kind ∈ ds.flatMap (ofDeclaration k) ↔ kind = k ∧ ∃ d ∈ ds, d.name = name := by
    intro k ds
    simp only [List.mem_flatMap, ofDeclaration, List.mem_cons, reduceCtorEq, node.injEq, false_or,
      List.not_mem_nil, or_false]
    constructor
    · rintro ⟨d, hd, rfl, rfl⟩
      exact ⟨rfl, d, hd, rfl⟩
    · rintro ⟨rfl, d, hd, rfl⟩
      exact ⟨d, hd, rfl, rfl⟩
  simp only [ofProgram, List.mem_append, hflow, hcalls, hlabels, hdeclared, List.not_mem_nil,
    and_or_left, or_false, false_or]
  constructor
  · rintro (h | h | h | h | h)
    · exact .inr (.inr h)
    · exact .inr (.inl (.inr h))
    · exact .inl (.inr h)
    · exact .inr (.inl (.inl h))
    · exact .inl (.inl h)
  · rintro ((h | h) | (h | h) | h)
    · exact .inr (.inr (.inr (.inr h)))
    · exact .inr (.inr (.inl h))
    · exact .inr (.inr (.inr (.inl h)))
    · exact .inr (.inl h)
    · exact .inl h

theorem mem_ofProgram_mention (h : .mention name ∈ ofProgram ir pdg labels) :
    (∃ kind, .node name kind ∈ ofProgram ir pdg labels) ∨
      (∃ c ∈ ir.calls, c.caller = name ∨ c.callee = name) ∨
      ∃ f ∈ ir.defUse ++ pdg.control, f.source = name ∨ f.target = name := by
  have hflow : ∀ {k : DependenceKind} {fs : List FlowDecl}, .mention name ∈ fs.flatMap (ofFlow k) →
      ∃ f ∈ fs, f.source = name ∨ f.target = name := by
    intro k fs hmem
    obtain ⟨f, hf, hmem⟩ := List.mem_flatMap.1 hmem
    exact ⟨f, hf, mem_ofLink_mention.1 hmem⟩
  have hlabel : ∀ {k : NodeKind} {m : SortedMap String Label},
      .mention name ∈ m.toList.flatMap (ofLabel k) → ∃ x, (name, x) ∈ m.toList := by
    intro k m hmem
    obtain ⟨⟨n, x⟩, hx, hmem⟩ := List.mem_flatMap.1 hmem
    simp only [ofLabel, List.mem_cons, reduceCtorEq, mention.injEq, false_or, List.not_mem_nil,
      or_false] at hmem
    exact ⟨x, hmem ▸ hx⟩
  have hdeclared : ∀ {k : NodeKind} {ds : List Declaration},
      .mention name ∈ ds.flatMap (ofDeclaration k) → ∃ d ∈ ds, d.name = name := by
    intro k ds hmem
    obtain ⟨d, hd, hmem⟩ := List.mem_flatMap.1 hmem
    simp only [ofDeclaration, List.mem_cons, reduceCtorEq, mention.injEq, List.not_mem_nil,
      or_false] at hmem
    exact ⟨d, hd, hmem.symm⟩
  simp only [ofProgram, List.mem_append, List.not_mem_nil, or_false] at h
  simp only [mem_ofProgram_node, List.mem_append]
  rcases h with h | h | h | h | h | h | h
  · obtain ⟨f, hf, hname⟩ := hflow h
    exact .inr (.inr ⟨f, .inr hf, hname⟩)
  · obtain ⟨f, hf, hname⟩ := hflow h
    exact .inr (.inr ⟨f, .inl hf, hname⟩)
  · obtain ⟨c, hc, hmem⟩ := List.mem_flatMap.1 h
    rcases mem_ofCall_mention hmem with hname | hname | hat
    · exact .inr (.inl ⟨c, hc, .inl hname⟩)
    · exact .inr (.inl ⟨c, hc, .inr hname⟩)
    · exact .inl ⟨.callSite, .inr (.inr ⟨rfl, c, hc, hat⟩)⟩
  · exact .inl ⟨.global, .inr (.inl ⟨rfl, .inr (hlabel h)⟩)⟩
  · exact .inl ⟨.function, .inl ⟨rfl, .inr (hlabel h)⟩⟩
  · exact .inl ⟨.global, .inr (.inl ⟨rfl, .inl (hdeclared h)⟩)⟩
  · exact .inl ⟨.function, .inl ⟨rfl, .inl (hdeclared h)⟩⟩

end Clause

namespace Graph

variable {g : Graph} {es : List Clause} {ir : IrFacts} {pdg : PdgFacts} {labels : Labels}
  {name a b : String}

def node? (g : Graph) (name : String) : Option Node := (g.idOf? name).bind (g.nodes[·]?)

def edge? (g : Graph) (a b : String) : Option Edge := do
  let u ← g.idOf? a
  let v ← g.idOf? b
  g.edges[← g.edgeBetween? u v]?

def HasKind (g : Graph) (name : String) (kind : NodeKind) : Prop :=
  ∃ n, g.node? name = some n ∧ n.kind = kind

def Carries (g : Graph) (a b : String) (k : DependenceKind) : Prop :=
  ∃ e, g.edge? a b = some e ∧ e.kinds.contains k = true

instance (g : Graph) (name : String) (kind : NodeKind) : Decidable (g.HasKind name kind) :=
  decidable_of_iff ((g.node? name).any (·.kind = kind) = true)
    (by simp [HasKind, Option.any_eq_true])

instance (g : Graph) (a b : String) (k : DependenceKind) : Decidable (g.Carries a b k) :=
  decidable_of_iff ((g.edge? a b).any (·.kinds.contains k) = true)
    (by simp [Carries, Option.any_eq_true])

theorem Distinct.node?_eq_some_iff {n : Node} (hg : g.Distinct) :
    g.node? name = some n ↔ ∃ v : NodeId, g.nodes[v]? = some n ∧ n.name = name := by
  rw [node?, Option.bind_eq_some_iff]
  constructor
  · rintro ⟨v, hv, hn⟩
    obtain ⟨m, hm, hname⟩ := getElem?_of_idOf? hv
    cases hm.symm.trans hn
    exact ⟨v, hn, hname⟩
  · rintro ⟨v, hn, hname⟩
    exact ⟨v, hg.idOf?_eq_some_iff.2 ⟨n, hn, hname⟩, hn⟩

theorem NodesRead.hasKind {kind : NodeKind} (hg : g.NodesRead es) (h : .node name kind ∈ es) :
    g.HasKind name kind := by
  obtain ⟨v, n, hn, hname, hkind⟩ := hg.declared name kind h
  exact ⟨n, Distinct.node?_eq_some_iff hg.distinct |>.2 ⟨v, hn, hname⟩, hkind⟩

theorem Reads.carries_iff {k : DependenceKind} (hg : g.Reads es) :
    g.Carries a b k ↔ .edge a b k ∈ es := by
  have hdistinct : g.Distinct := hg.nodes.distinct
  constructor
  · rintro ⟨e, he, hk⟩
    simp only [edge?, bind, Option.bind_eq_some_iff] at he
    obtain ⟨u, hu, v, hv, i, hi, he⟩ := he
    obtain ⟨m, hm, rfl⟩ := getElem?_of_idOf? hu
    obtain ⟨n, hn, rfl⟩ := getElem?_of_idOf? hv
    obtain ⟨d, hd, rfl, rfl⟩ := (edgeBetween?_eq_some_iff hg.edges.single).1 hi
    cases hd.symm.trans he
    rw [← name_eq hm, ← name_eq hn]
    exact (hg.contains_iff (mem_edges_iff.2 ⟨i, he⟩)).1 hk
  · intro h
    obtain ⟨e, he, rfl, rfl, hk⟩ := (hg.edges.edge a b k).1 h
    obtain ⟨i, hi⟩ := mem_edges_iff.1 he
    obtain ⟨hu, hv⟩ := hg.edges.closed e he
    have hid : ∀ {w : NodeId}, w < g.nodes.size → g.idOf? (g.name w) = some w := by
      intro w hw
      have hn := Array.getElem?_eq_getElem hw
      exact hdistinct.idOf?_eq_some_iff.2 ⟨_, hn, (name_eq hn).symm⟩
    have hpair : g.edgeBetween? e.source e.target = some i :=
      (edgeBetween?_eq_some_iff hg.edges.single).2 ⟨e, hi, rfl, rfl⟩
    refine ⟨e, ?_, hk⟩
    simp only [edge?, bind, Option.bind, hid hu, hid hv, hpair, hi]

theorem exists_at_of_addCalls : ∀ {cs : List CallDecl} {d d' : Draft},
    cs.foldlM Draft.addCall d = .ok d' → ∀ c ∈ cs, c.site ≠ none → ∃ name, c.At name := by
  intro cs
  induction cs with
  | nil =>
    intro d d' _ c hc
    cases hc
  | cons c cs ih =>
    intro d d' hok x hx hsome
    rw [List.foldlM_cons] at hok
    obtain ⟨d₁, hd₁, hok⟩ := bind_eq_ok.1 hok
    rcases List.mem_cons.1 hx with rfl | hx
    · obtain ⟨site, hsite⟩ := Option.ne_none_iff_exists'.1 hsome
      obtain ⟨r, hr, -⟩ := bind_eq_ok.1 hd₁
      rw [addCall, hsite] at hr
      obtain ⟨name, hname, -⟩ := bind_eq_ok.1 hr
      exact ⟨name, site, hsite, hname⟩
    · exact ih hok x hx hsome

end Graph

def Mentioned (ir : IrFacts) (pdg : PdgFacts) (name : String) : Prop :=
  (∃ c ∈ ir.calls, c.caller = name ∨ c.callee = name) ∨
    ∃ f ∈ ir.defUse ++ pdg.control, f.source = name ∨ f.target = name

/-- What the graph shows is what the program says: nothing is lost and nothing is added. -/
structure Graph.Depicts (g : Graph) (ir : IrFacts) (pdg : PdgFacts) (labels : Labels) : Prop where
  data : ∀ a b, g.Carries a b .data ↔ ∃ f ∈ ir.defUse, f.source = a ∧ f.target = b
  control : ∀ a b, g.Carries a b .control ↔ ∃ f ∈ pdg.control, f.source = a ∧ f.target = b
  call : ∀ a b, ¬ g.HasKind a .callSite → ¬ g.HasKind b .callSite →
    (g.Carries a b .call ↔ ∃ c ∈ ir.calls, c.site = none ∧ c.caller = a ∧ c.callee = b)
  /-- A call at a known place goes through the node for that place. -/
  site : ∀ c ∈ ir.calls, ∀ source, c.site = some source →
    ∃ name, siteName c.caller c.callee (.ofSource source) = .ok name ∧ g.HasKind name .callSite ∧
      g.Carries c.caller name .call ∧ g.Carries name c.callee .call
  /-- There is a node for a place only if some call is made there. -/
  placed : ∀ name, g.HasKind name .callSite → ∃ c ∈ ir.calls, c.At name
  function : ∀ name, (∃ d ∈ ir.functions, d.name = name) ∨ labels.functions.contains name = true →
    g.HasKind name .function
  global : ∀ name, (∃ d ∈ ir.globals, d.name = name) ∨ labels.globals.contains name = true →
    g.HasKind name .global
  /-- A node has the label that is given to its name, and no other. -/
  label : ∀ name n, g.node? name = some n →
    n.label = (labels.functions.get? name).or (labels.globals.get? name)
  /-- What was not declared is a function that a call or a dependence mentions. -/
  other : ∀ name n, g.node? name = some n → n.kind ≠ .callSite →
    (∀ d ∈ ir.functions ++ ir.globals, d.name ≠ name) → labels.functions.contains name = false →
    labels.globals.contains name = false → n.kind = .function ∧ Mentioned ir pdg name

namespace Graph

variable {g : Graph} {ir : IrFacts} {pdg : PdgFacts} {labels : Labels} {name a b : String}
  {n : Node}

theorem hasKind_of_at (hg : g.Reads (Clause.ofProgram ir pdg labels)) {c : CallDecl}
    (hc : c ∈ ir.calls) (hat : c.At name) : g.HasKind name .callSite :=
  hg.nodes.hasKind (Clause.mem_ofProgram_node.2 (.inr (.inr ⟨rfl, c, hc, hat⟩)))

theorem exists_at_of_hasKind (hg : g.Reads (Clause.ofProgram ir pdg labels))
    (h : g.HasKind name .callSite) : ∃ c ∈ ir.calls, c.At name := by
  obtain ⟨n, hn, hkind⟩ := h
  obtain ⟨v, hv, rfl⟩ := (Distinct.node?_eq_some_iff hg.nodes.distinct).1 hn
  rcases hg.nodes.plain v n hv with hplain | hclause
  · rw [hkind] at hplain
    cases hplain
  · rw [hkind, Clause.mem_ofProgram_node] at hclause
    simpa using hclause

theorem carries_call_iff (hg : g.Reads (Clause.ofProgram ir pdg labels))
    (ha : ¬ g.HasKind a .callSite) (hb : ¬ g.HasKind b .callSite) :
    g.Carries a b .call ↔ ∃ c ∈ ir.calls, c.site = none ∧ c.caller = a ∧ c.callee = b := by
  rw [hg.carries_iff, Clause.mem_ofProgram_edge]
  simp only [reduceCtorEq, false_and, true_and, false_or]
  refine exists_congr fun c => and_congr_right fun hc => ?_
  rw [CallDecl.Links, or_iff_left]
  rintro (⟨-, hat⟩ | ⟨hat, -⟩)
  · exact hb (hasKind_of_at hg hc hat)
  · exact ha (hasKind_of_at hg hc hat)

theorem label_eq_or (hg : g.Reads (Clause.ofProgram ir pdg labels)) (hn : g.node? name = some n) :
    n.label = (labels.functions.get? name).or (labels.globals.get? name) := by
  obtain ⟨v, hv, rfl⟩ := (Distinct.node?_eq_some_iff hg.nodes.distinct).1 hn
  have hlabel : ∀ x, n.label = some x ↔ (n.name, x) ∈ labels.functions.toList ∨
      (n.name, x) ∈ labels.globals.toList := fun x =>
    Iff.trans ⟨hg.nodes.label v n x hv, hg.nodes.label_eq hg.oneLabel hv⟩ Clause.mem_ofProgram_label
  ext x
  rw [hlabel, ← SortedMap.get?_eq_some_iff,
    ← SortedMap.get?_eq_some_iff, Option.or_eq_some_iff]
  refine or_congr_right ⟨fun hglobal => ⟨?_, hglobal⟩, And.right⟩
  -- a name labelled as a function and as a global would have two labels, and two kinds
  rw [Option.eq_none_iff_forall_ne_some]
  intro y hfunction
  rw [SortedMap.get?_eq_some_iff] at hfunction hglobal
  have hkind := hg.nodes.kind_eq hv (Clause.mem_ofProgram_function hfunction)
  cases hkind.symm.trans (hg.nodes.kind_eq hv (Clause.mem_ofProgram_global hglobal))

theorem function_of_undeclared (hg : g.Reads (Clause.ofProgram ir pdg labels))
    (hn : g.node? name = some n) (hkind : n.kind ≠ .callSite)
    (hdeclared : ∀ d ∈ ir.functions ++ ir.globals, d.name ≠ name)
    (hfunction : labels.functions.contains name = false)
    (hglobal : labels.globals.contains name = false) :
    n.kind = .function ∧ Mentioned ir pdg name := by
  obtain ⟨v, hv, rfl⟩ := (Distinct.node?_eq_some_iff hg.nodes.distinct).1 hn
  have hnone : ∀ {m : SortedMap String Label}, m.contains n.name = false →
      ∀ x, (n.name, x) ∉ m.toList := by
    intro m hm x hx
    rw [SortedMap.contains, SortedMap.get?_eq_some_iff.2 hx] at hm
    cases hm
  have hsite : ∀ kind, .node n.name kind ∈ Clause.ofProgram ir pdg labels → kind = .callSite := by
    intro kind hclause
    rcases Clause.mem_ofProgram_node.1 hclause with
      ⟨-, ⟨d, hd, hname⟩ | ⟨x, hx⟩⟩ | ⟨-, ⟨d, hd, hname⟩ | ⟨x, hx⟩⟩ | ⟨hk, -⟩
    · exact absurd hname (hdeclared d (List.mem_append_left _ hd))
    · exact absurd hx (hnone hfunction x)
    · exact absurd hname (hdeclared d (List.mem_append_right _ hd))
    · exact absurd hx (hnone hglobal x)
    · exact hk
  refine ⟨(hg.nodes.plain v n hv).resolve_right fun h => hkind (hsite _ h), ?_⟩
  rcases Clause.mem_ofProgram_mention ((hg.nodes.mentioned _).2 ⟨v, n, hv, rfl⟩) with
    ⟨kind, hclause⟩ | hmentioned
  · cases hsite kind hclause
    exact absurd (hg.nodes.kind_eq hv hclause) hkind
  · exact hmentioned

/-- The graph that is built of a program shows exactly what the program says. -/
theorem depicts_ofProgram (h : ofProgram ir pdg labels = .ok (.ok g)) :
    g.Depicts ir pdg labels := by
  have hg := reads_ofProgram h
  obtain ⟨d, hcalls, -, -⟩ := ofProgram_eq_ok.1 h
  refine ⟨fun a b => ?_, fun a b => ?_, fun a b => carries_call_iff hg,
    fun c hc source hsource => ?_,
    fun name => exists_at_of_hasKind hg, fun name hname => ?_, fun name hname => ?_,
    fun name n => label_eq_or hg, fun name n => function_of_undeclared hg⟩
  · rw [hg.carries_iff, Clause.mem_ofProgram_edge]
    simp
  · rw [hg.carries_iff, Clause.mem_ofProgram_edge]
    simp
  · have hsome : c.site ≠ none := by simp [hsource]
    obtain ⟨name, hat⟩ := exists_at_of_addCalls hcalls c hc hsome
    obtain ⟨source', hsource', hname⟩ := hat
    cases hsource.symm.trans hsource'
    have hlinks : ∀ a b, c.Links a b → g.Carries a b .call := fun a b hlink =>
      hg.carries_iff.2 (Clause.mem_ofProgram_edge.2 (.inr (.inr ⟨rfl, c, hc, hlink⟩)))
    have hat : c.At name := ⟨source, hsource, hname⟩
    exact ⟨name, hname, hasKind_of_at hg hc hat, hlinks _ _ (.inr (.inl ⟨rfl, hat⟩)),
      hlinks _ _ (.inr (.inr ⟨hat, rfl⟩))⟩
  · refine hg.nodes.hasKind
      (Clause.mem_ofProgram_node.2 (.inl ⟨rfl, hname.imp id fun hlabel => ?_⟩))
    obtain ⟨x, hx⟩ := SortedMap.contains_iff.1 hlabel
    exact ⟨x, SortedMap.mem_of_get? hx⟩
  · refine hg.nodes.hasKind
      (Clause.mem_ofProgram_node.2 (.inr (.inl ⟨rfl, hname.imp id fun hlabel => ?_⟩)))
    obtain ⟨x, hx⟩ := SortedMap.contains_iff.1 hlabel
    exact ⟨x, SortedMap.mem_of_get? hx⟩

/-- Names that are declared, labelled, called and used more than once, and some only mentioned. -/
def overlapping : IrFacts where
  functions := [⟨"main", some (.line "a.c" 3 none)⟩, ⟨"main", none⟩]
  globals := [⟨"state", none⟩]
  calls := [⟨"main", "log", none⟩, ⟨"main", "log", some (.line "a.c" 7 (some 2))⟩]
  defUse := [⟨"main", "state", none⟩, ⟨"state", "log", none⟩, ⟨"main", "state", none⟩]

def overlappingControl : PdgFacts where
  control := [⟨"main", "log", none⟩, ⟨"idle", "main->log@a.c:7:2", none⟩]

def overlappingLabels : Labels where
  functions := .ofList [("main", { level := some 0 })]
  globals := .ofList [("state", { level := some 1 })]

theorem depicts_ofProgram_overlapping :
    ∃ g, ofProgram overlapping overlappingControl overlappingLabels = .ok (.ok g) ∧
      g.Depicts overlapping overlappingControl overlappingLabels := by
  have hrun : (ofProgram overlapping overlappingControl overlappingLabels).toOption.any
      (fun r => r.toOption.isSome) = true := by
    decide +kernel
  obtain ⟨r, hok, hr⟩ := exists_ok_of_any hrun
  cases r with
  | error e => cases hr
  | ok g => exact ⟨g, hok, depicts_ofProgram hok⟩

end Graph

end Enclave
