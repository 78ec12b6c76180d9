import Enclave.Proofs.Consistency
import Enclave.Proofs.Preparing

/-!
# Enclave.Proofs.Twins

Two graphs that hold the same clauses have the same nodes and edges up to numbering. Nodes that
agree in name, kind and label are twins; `Graph.Mirrors g h` says that `g` has a twin for every node
and edge of `h`.
-/

namespace Enclave

namespace Graph

variable {g h : Graph} {es : List Clause} {u v w : NodeId} {e d : Edge} {a : Level}

/-- Nodes of two graphs that agree in all that the spread looks at. -/
def Twin (g h : Graph) (v w : NodeId) : Prop :=
  ∃ m n, g.nodes[v]? = some m ∧ h.nodes[w]? = some n ∧ m.name = n.name ∧ m.kind = n.kind ∧
    m.label = n.label

/-- Edges of the same kinds between twins. -/
def TwinEdge (g h : Graph) (e d : Edge) : Prop :=
  g.Twin h e.source d.source ∧ g.Twin h e.target d.target ∧ e.kinds = d.kinds

/-- Every node and edge of `h` has a twin in `g`, and only one. -/
structure Mirrors (g h : Graph) : Prop where
  node : ∀ w < h.nodes.size, ∃ v, g.Twin h v w
  edge : ∀ d ∈ h.edges.toList, ∃ e ∈ g.edges.toList, g.TwinEdge h e d
  unique : ∀ u v w, g.Twin h u w → g.Twin h v w → u = v

theorem Twin.symm (ht : g.Twin h v w) : h.Twin g w v := by
  obtain ⟨m, n, hm, hn, hname, hkind, hlabel⟩ := ht
  exact ⟨n, m, hn, hm, hname.symm, hkind.symm, hlabel.symm⟩

theorem Twin.lt (ht : g.Twin h v w) : v < g.nodes.size ∧ w < h.nodes.size := by
  obtain ⟨m, n, hm, hn, -⟩ := ht
  exact ⟨lt_size hm, lt_size hn⟩

theorem Twin.bind_eq {α : Type} {f : Node → Option α} (ht : g.Twin h v w)
    (hf : ∀ m n : Node, m.label = n.label → f m = f n) :
    g.nodes[v]?.bind f = h.nodes[w]?.bind f := by
  obtain ⟨m, n, hm, hn, -, -, hlabel⟩ := ht
  rw [hm, hn, Option.bind_some, Option.bind_some, hf m n hlabel]

theorem Twin.taint? (ht : g.Twin h v w) :
    g.nodes[v]?.bind (·.taint?) = h.nodes[w]?.bind (·.taint?) :=
  ht.bind_eq fun m n hmn => by rw [Node.taint?, Node.taint?, hmn]

theorem Twin.seed? (ht : g.Twin h v w) :
    g.nodes[v]?.bind (·.seed?) = h.nodes[w]?.bind (·.seed?) :=
  ht.bind_eq fun m n hmn => by rw [Node.seed?, Node.seed?, hmn]

theorem Twin.singleReturn? (ht : g.Twin h v w) :
    g.nodes[v]?.bind (·.singleReturn?) = h.nodes[w]?.bind (·.singleReturn?) :=
  ht.bind_eq fun m n hmn => by
    rw [Node.singleReturn?, Node.singleReturn?, Node.taint?, Node.taint?, hmn]

theorem Twin.code? (ht : g.Twin h v w) :
    g.nodes[v]?.bind (·.code?) = h.nodes[w]?.bind (·.code?) :=
  ht.bind_eq fun m n hmn => by rw [Node.code?, Node.code?, Node.taint?, Node.taint?, hmn]

/-- The labels that clauses give to a name are one. -/
def OneLabel (es : List Clause) : Prop :=
  ∀ name x y, .label name x ∈ es → .label name y ∈ es → x = y

theorem NodesRead.kind_eq {n : Node} {k : NodeKind} (hg : g.NodesRead es)
    (hn : g.nodes[v]? = some n) (hk : .node n.name k ∈ es) : n.kind = k := by
  obtain ⟨u, m, hm, hname, rfl⟩ := hg.declared _ k hk
  cases hg.distinct u v m n hm hn hname
  cases hm.symm.trans hn
  rfl

theorem NodesRead.label_eq {n : Node} {x : Label} (hg : g.NodesRead es) (hone : OneLabel es)
    (hn : g.nodes[v]? = some n) (hx : .label n.name x ∈ es) : n.label = some x := by
  obtain ⟨u, m, hm, hname, hsome⟩ := hg.labelled _ x hx
  cases hg.distinct u v m n hm hn hname
  cases hm.symm.trans hn
  obtain ⟨y, hy⟩ := Option.isSome_iff_exists.1 hsome
  rw [hy, hone _ _ _ hx (hg.label v n y hn hy)]

/-- A name that is labelled in a graph is labelled once: it is a function or a global, not both. -/
theorem Reads.oneLabel {ir : IrFacts} {pdg : PdgFacts} {labels : Labels}
    (hg : g.Reads (Clause.ofProgram ir pdg labels)) :
    OneLabel (Clause.ofProgram ir pdg labels) := by
  have hone : ∀ {m : SortedMap String Label} {name : String} {x y : Label},
      (name, x) ∈ m.toList → (name, y) ∈ m.toList → x = y := fun hx hy => Option.some.inj
    ((SortedMap.get?_eq_some_iff.2 hx).symm.trans (SortedMap.get?_eq_some_iff.2 hy))
  have hnot : ∀ {name : String} {x y : Label}, (name, x) ∈ labels.functions.toList →
      (name, y) ∉ labels.globals.toList := by
    intro name x y hx hy
    -- the one node of the name would be declared with both kinds
    obtain ⟨v, n, hn, rfl, hkind⟩ := hg.nodes.declared name .function
      (Clause.mem_ofProgram_function hx)
    cases hkind.symm.trans (hg.nodes.kind_eq hn (Clause.mem_ofProgram_global hy))
  intro name x y hx hy
  rcases Clause.mem_ofProgram_label.1 hx with hx | hx <;>
    rcases Clause.mem_ofProgram_label.1 hy with hy | hy
  · exact hone hx hy
  · exact absurd hy (hnot hx)
  · exact absurd hx (hnot hy)
  · exact hone hx hy

theorem NodesRead.twin {m n : Node} (hg : g.NodesRead es) (hh : h.NodesRead es) (hone : OneLabel es)
    (hm : g.nodes[v]? = some m) (hn : h.nodes[w]? = some n) (hname : m.name = n.name) :
    g.Twin h v w := by
  refine ⟨m, n, hm, hn, hname, ?_, Option.ext fun x => ⟨fun hx => ?_, fun hx => ?_⟩⟩
  · rcases hg.plain v m hm with hplain | hclause
    · rcases hh.plain w n hn with hplain' | hclause'
      · rw [hplain, hplain']
      · exact hg.kind_eq hm (hname ▸ hclause')
    · exact (hh.kind_eq hn (hname ▸ hclause)).symm
  · exact hh.label_eq hone hn (hname ▸ hg.label v m x hm hx)
  · exact hg.label_eq hone hm (hname ▸ hh.label w n x hn hx)

theorem NodesRead.twin_of_name (hg : g.NodesRead es) (hh : h.NodesRead es) (hone : OneLabel es)
    (hv : v < g.nodes.size) (hw : w < h.nodes.size) (hname : g.name v = h.name w) :
    g.Twin h v w := by
  have hm := Array.getElem?_eq_getElem hv
  have hn := Array.getElem?_eq_getElem hw
  rw [name_eq hm, name_eq hn] at hname
  exact hg.twin hh hone hm hn hname

theorem NodesRead.exists_twin (hg : g.NodesRead es) (hh : h.NodesRead es) (hone : OneLabel es)
    (hw : w < h.nodes.size) : ∃ v, g.Twin h v w := by
  have hn := Array.getElem?_eq_getElem hw
  obtain ⟨v, m, hm, hname⟩ := (hg.mentioned _).1 ((hh.mentioned _).2 ⟨w, _, hn, rfl⟩)
  exact ⟨v, hg.twin hh hone hm hn hname⟩

theorem NodesRead.twin_unique (hg : g.NodesRead es) (hu : g.Twin h u w) (hv : g.Twin h v w) :
    u = v := by
  obtain ⟨m, n, hm, hn, hname, -⟩ := hu
  obtain ⟨m', n', hm', hn', hname', -⟩ := hv
  cases hn.symm.trans hn'
  exact hg.distinct u v m m' hm hm' (hname.trans hname'.symm)

theorem Reads.contains_iff (hg : g.Reads es) (he : e ∈ g.edges.toList) {k : DependenceKind} :
    e.kinds.contains k = true ↔ .edge (g.name e.source) (g.name e.target) k ∈ es :=
  hg.edges.contains_iff hg.nodes.distinct he

/-- Graphs that hold the same clauses mirror each other. -/
theorem Reads.mirrors (hg : g.Reads es) (hh : h.Reads es) (hone : OneLabel es) : g.Mirrors h where
  node w hw := hg.nodes.exists_twin hh.nodes hone hw
  edge d hd := by
    obtain ⟨k, hk⟩ := hh.edges.kinded d hd
    obtain ⟨e, he, hs, ht, -⟩ := (hg.edges.edge _ _ k).1 ((hh.contains_iff hd).1 hk)
    obtain ⟨hes, het⟩ := hg.edges.closed e he
    obtain ⟨hds, hdt⟩ := hh.edges.closed d hd
    refine ⟨e, he, hg.nodes.twin_of_name hh.nodes hone hes hds hs,
      hg.nodes.twin_of_name hh.nodes hone het hdt ht, Kinds.ext_contains fun k' => ?_⟩
    rw [hg.contains_iff he, hh.contains_iff hd, hs, ht]
  unique u v w hu hv := hg.nodes.twin_unique hu hv

end Graph

end Enclave
