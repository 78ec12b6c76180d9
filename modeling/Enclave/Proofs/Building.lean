import Enclave.Dependence.Build
import Enclave.Proofs.Components
import Enclave.Proofs.Sequencing

/-!
# Enclave.Proofs.Building

What the graph of a program says, in terms of names. The parts of a program are read as clauses: a
name is mentioned, a node is declared with its kind, a label is given to a name, two names depend on
each other. `Graph.Reads` says that a graph holds what a list of clauses says and nothing else; it
does not depend on the order of the clauses.

* `reads_ofProgram`: the graph of a program holds the clauses of its parts.
-/

namespace Enclave

/-- One thing that a part of a program says about the graph. -/
inductive Clause where
  | mention (name : String)
  | node (name : String) (kind : NodeKind)
  | label (name : String) (x : Label)
  | edge (source target : String) (kind : DependenceKind)

theorem Kinds.contains_insert {s : Kinds} {k k' : DependenceKind} :
    (s.insert k).contains k' = true ↔ k' = k ∨ s.contains k' = true := by
  cases k <;> cases k' <;> simp [Kinds.insert, Kinds.contains]

theorem Kinds.contains_single {k k' : DependenceKind} :
    (Kinds.single k).contains k' = true ↔ k' = k := by
  cases k <;> cases k' <;> simp [Kinds.single, Kinds.empty, Kinds.insert, Kinds.contains]

theorem Kinds.ext_contains {s t : Kinds} (h : ∀ k, s.contains k = true ↔ t.contains k = true) :
    s = t := by
  obtain ⟨a, b, c⟩ := s
  obtain ⟨a', b', c'⟩ := t
  have h₁ := h .data
  have h₂ := h .control
  have h₃ := h .call
  simp only [Kinds.contains, ← Bool.eq_iff_iff] at h₁ h₂ h₃
  rw [h₁, h₂, h₃]

def Location.earlier? : Option Location → Option Location → Option Location
  | some a, some b => some (a.earlier b)
  | a, b => a.or b

namespace Graph

variable {g g' : Graph} {es es' : List Clause} {name : String} {kind : NodeKind} {u v : NodeId}
  {n : Node}

/-- The nodes of the graph are those that the clauses say, each name once. -/
structure NodesRead (g : Graph) (es : List Clause) : Prop where
  distinct : ∀ (u v : NodeId) (m n : Node), g.nodes[u]? = some m → g.nodes[v]? = some n →
    m.name = n.name → u = v
  mentioned : ∀ name, .mention name ∈ es ↔
    ∃ (v : NodeId) (n : Node), g.nodes[v]? = some n ∧ n.name = name
  declared : ∀ name k, .node name k ∈ es →
    ∃ (v : NodeId) (n : Node), g.nodes[v]? = some n ∧ n.name = name ∧ n.kind = k
  plain : ∀ (v : NodeId) (n : Node), g.nodes[v]? = some n →
    n.kind = .function ∨ .node n.name n.kind ∈ es
  labelled : ∀ name x, .label name x ∈ es →
    ∃ (v : NodeId) (n : Node), g.nodes[v]? = some n ∧ n.name = name ∧ n.label.isSome
  label : ∀ (v : NodeId) (n : Node) x, g.nodes[v]? = some n → n.label = some x →
    .label n.name x ∈ es
  located : ∀ (v : NodeId) (n : Node) place, g.nodes[v]? = some n → n.location = some place →
    (∃ source, place = .ofSource source) ∨ ∃ x, .label n.name x ∈ es ∧ x.location = some place

/-- The edges of the graph are those that the clauses say, one for each pair of nodes. -/
structure EdgesRead (g : Graph) (es : List Clause) : Prop where
  closed : g.Closed
  single : ∀ (i j : EdgeId) (d e : Edge), g.edges[i]? = some d → g.edges[j]? = some e →
    d.source = e.source → d.target = e.target → i = j
  kinded : ∀ e ∈ g.edges.toList, ∃ k, e.kinds.contains k = true
  edge : ∀ a b k, .edge a b k ∈ es ↔ ∃ e ∈ g.edges.toList, g.name e.source = a ∧
    g.name e.target = b ∧ e.kinds.contains k = true

/-- The graph holds what the clauses say. -/
structure Reads (g : Graph) (es : List Clause) : Prop where
  nodes : g.NodesRead es
  edges : g.EdgesRead es

theorem reads_empty : Reads {} [] := by
  refine ⟨⟨?_, ?_, ?_, ?_, ?_, ?_, ?_⟩, ?_, ?_, ?_, ?_⟩ <;> simp [Closed]

theorem Reads.congr (h : g.Reads es) (hes : ∀ x, x ∈ es' ↔ x ∈ es) : g.Reads es' := by
  obtain ⟨⟨h₁, h₂, h₃, h₄, h₅, h₆, h₇⟩, h₈, h₉, h₁₀, h₁₁⟩ := h
  exact ⟨⟨h₁, by simpa only [hes] using h₂, by simpa only [hes] using h₃,
    by simpa only [hes] using h₄, by simpa only [hes] using h₅, by simpa only [hes] using h₆,
    by simpa only [hes] using h₇⟩, h₈, h₉, h₁₀, by simpa only [hes] using h₁₁⟩

theorem getElem?_addNode : (g.addNode name kind).1.nodes[v]? = some n ↔
    g.nodes[v]? = some n ∨ (v = g.nodes.size ∧ n = { name, kind }) := by
  rw [addNode, Array.getElem?_push]
  split
  · rename_i hv
    subst hv
    rw [Array.getElem?_eq_none (Nat.le_refl _)]
    simp [eq_comm]
  · rename_i hv
    simp [hv]

theorem getElem?_modifyNode {f : Node → Node} : (g.modifyNode v f).nodes[u]? = some n ↔
    (u ≠ v ∧ g.nodes[u]? = some n) ∨ (u = v ∧ ∃ m, g.nodes[u]? = some m ∧ f m = n) := by
  rw [modifyNode, Array.getElem?_modify]
  split
  · rename_i hv
    simp [hv]
  · rename_i hv
    simp [Ne.symm hv]

theorem getElem?_of_idOf? (h : g.idOf? name = some v) :
    ∃ n, g.nodes[v]? = some n ∧ n.name = name := by
  obtain ⟨hv, hname, -⟩ := Array.findIdx?_eq_some_iff_getElem.1 h
  exact ⟨_, Array.getElem?_eq_getElem hv, by simpa using hname⟩

theorem ne_of_idOf?_eq_none (h : g.idOf? name = none) (hn : g.nodes[v]? = some n) :
    n.name ≠ name := by
  have := Array.findIdx?_eq_none_iff.1 h n (Array.mem_of_getElem? hn)
  simpa using this

theorem name_eq (hn : g.nodes[v]? = some n) : g.name v = n.name := by
  rw [Graph.name, hn, Option.map_some, Option.getD_some]

def Distinct (g : Graph) : Prop :=
  ∀ (u v : NodeId) (m n : Node), g.nodes[u]? = some m → g.nodes[v]? = some n →
    m.name = n.name → u = v

theorem Distinct.addNode (h : g.Distinct)
    (hnew : ∀ (v : NodeId) (n : Node), g.nodes[v]? = some n → n.name ≠ name) :
    (g.addNode name kind).1.Distinct := by
  intro u v m n hm hn hmn
  rcases getElem?_addNode.1 hm with hm | ⟨rfl, rfl⟩ <;>
    rcases getElem?_addNode.1 hn with hn | ⟨rfl, rfl⟩
  · exact h u v m n hm hn hmn
  · exact absurd hmn (hnew u m hm)
  · exact absurd hmn.symm (hnew v n hn)
  · rfl

theorem Distinct.modifyNode {f : Node → Node} (h : g.Distinct)
    (hf : ∀ m, (f m).name = m.name) : (g.modifyNode v f).Distinct := by
  have hbefore : ∀ (u : NodeId) (m : Node), (g.modifyNode v f).nodes[u]? = some m →
      ∃ m', g.nodes[u]? = some m' ∧ m.name = m'.name := by
    intro u m hm
    rcases getElem?_modifyNode.1 hm with ⟨-, hm⟩ | ⟨-, m', hm', rfl⟩
    · exact ⟨m, hm, rfl⟩
    · exact ⟨m', hm', hf m'⟩
  intro u w m n hm hn hmn
  obtain ⟨m', hm', hname⟩ := hbefore u m hm
  obtain ⟨n', hn', hname'⟩ := hbefore w n hn
  exact h u w m' n' hm' hn' (by rw [← hname, ← hname', hmn])

theorem Distinct.eq_of_name (hg : g.Distinct) (hu : u < g.nodes.size) (hv : v < g.nodes.size)
    (hname : g.name u = g.name v) : u = v := by
  have hm := Array.getElem?_eq_getElem hu
  have hn := Array.getElem?_eq_getElem hv
  rw [name_eq hm, name_eq hn] at hname
  exact hg u v _ _ hm hn hname

theorem NodesRead.addNode {D : Prop} (h : g.NodesRead es)
    (hnew : ∀ (v : NodeId) (n : Node), g.nodes[v]? = some n → n.name ≠ name)
    (hkind : kind = .function ∨ D)
    (hes : ∀ x, x ∈ es' ↔ x = .mention name ∨ (D ∧ x = .node name kind) ∨ x ∈ es) :
    (g.addNode name kind).1.NodesRead es' where
  distinct := Distinct.addNode h.distinct hnew
  mentioned other := by
    rw [hes]
    constructor
    · rintro (heq | ⟨-, heq⟩ | hold)
      · cases heq
        exact ⟨_, _, getElem?_addNode.2 (.inr ⟨rfl, rfl⟩), rfl⟩
      · cases heq
      · obtain ⟨v, n, hn, hname⟩ := (h.mentioned other).1 hold
        exact ⟨v, n, getElem?_addNode.2 (.inl hn), hname⟩
    · rintro ⟨v, n, hn, rfl⟩
      rcases getElem?_addNode.1 hn with hn | ⟨rfl, rfl⟩
      · exact .inr (.inr ((h.mentioned _).2 ⟨v, n, hn, rfl⟩))
      · exact .inl rfl
  declared other k hk := by
    rcases (hes _).1 hk with heq | ⟨-, heq⟩ | hold
    · cases heq
    · cases heq
      exact ⟨_, _, getElem?_addNode.2 (.inr ⟨rfl, rfl⟩), rfl, rfl⟩
    · obtain ⟨v, n, hn, hname⟩ := h.declared other k hold
      exact ⟨v, n, getElem?_addNode.2 (.inl hn), hname⟩
  plain v n hn := by
    rcases getElem?_addNode.1 hn with hn | ⟨rfl, rfl⟩
    · exact (h.plain v n hn).imp id fun h => (hes _).2 (.inr (.inr h))
    · exact hkind.imp id fun h => (hes _).2 (.inr (.inl ⟨h, rfl⟩))
  labelled other x hx := by
    rcases (hes _).1 hx with heq | ⟨-, heq⟩ | hold
    · cases heq
    · cases heq
    · obtain ⟨v, n, hn, hname⟩ := h.labelled other x hold
      exact ⟨v, n, getElem?_addNode.2 (.inl hn), hname⟩
  label v n x hn hx := by
    rcases getElem?_addNode.1 hn with hn | ⟨rfl, rfl⟩
    · exact (hes _).2 (.inr (.inr (h.label v n x hn hx)))
    · cases hx
  located v n place hn hplace := by
    rcases getElem?_addNode.1 hn with hn | ⟨rfl, rfl⟩
    · refine (h.located v n place hn hplace).imp id ?_
      rintro ⟨x, hx, hloc⟩
      exact ⟨x, (hes _).2 (.inr (.inr hx)), hloc⟩
    · cases hplace

theorem NodesRead.again {D : Prop} (h : g.NodesRead es) (hn : g.nodes[v]? = some n)
    (hes : ∀ x, x ∈ es' ↔ x = .mention n.name ∨ (D ∧ x = .node n.name n.kind) ∨ x ∈ es) :
    g.NodesRead es' where
  distinct := h.distinct
  mentioned other := by
    rw [hes, ← h.mentioned]
    refine ⟨?_, fun hold => .inr (.inr hold)⟩
    rintro (heq | ⟨-, heq⟩ | hold)
    · cases heq
      exact (h.mentioned _).2 ⟨v, n, hn, rfl⟩
    · cases heq
    · exact hold
  declared other k hk := by
    rcases (hes _).1 hk with heq | ⟨-, heq⟩ | hold
    · cases heq
    · cases heq
      exact ⟨v, n, hn, rfl, rfl⟩
    · exact h.declared other k hold
  plain u m hm := (h.plain u m hm).imp id fun hold => (hes _).2 (.inr (.inr hold))
  labelled other x hx := by
    rcases (hes _).1 hx with heq | ⟨-, heq⟩ | hold
    · cases heq
    · cases heq
    · exact h.labelled other x hold
  label u m x hm hx := (hes _).2 (.inr (.inr (h.label u m x hm hx)))
  located u m place hm hplace := by
    refine (h.located u m place hm hplace).imp id ?_
    rintro ⟨x, hx, hloc⟩
    exact ⟨x, (hes _).2 (.inr (.inr hx)), hloc⟩

/-- The change keeps the name and kind of a node; it may give it the label `x`, and a place. -/
structure Retouches (f : Node → Node) (x : Option Label) : Prop where
  name : ∀ m, (f m).name = m.name
  kind : ∀ m, (f m).kind = m.kind
  label : ∀ m, (f m).label = x.or m.label
  place : ∀ m place, (f m).location = some place → m.location = some place ∨
    (∃ source, place = .ofSource source) ∨ ∃ z ∈ x, z.location = some place

theorem Retouches.exists_after {f : Node → Node} {x : Option Label} {m : Node} (hf : Retouches f x)
    (hm : g.nodes[u]? = some m) : ∃ m', (g.modifyNode v f).nodes[u]? = some m' ∧
      m'.name = m.name ∧ m'.kind = m.kind ∧ (m.label.isSome → m'.label.isSome) := by
  by_cases huv : u = v
  · refine ⟨f m, getElem?_modifyNode.2 (.inr ⟨huv, m, hm, rfl⟩), hf.name m, hf.kind m, fun h => ?_⟩
    rw [hf.label, Option.isSome_or, h, Bool.or_true]
  · exact ⟨m, getElem?_modifyNode.2 (.inl ⟨huv, hm⟩), rfl, rfl, id⟩

theorem Retouches.exists_before {f : Node → Node} {x : Option Label} {m' : Node}
    (hf : Retouches f x) (hm' : (g.modifyNode v f).nodes[u]? = some m') :
    ∃ m, g.nodes[u]? = some m ∧
      m'.name = m.name ∧ m'.kind = m.kind ∧
      (m'.label = m.label ∨ u = v ∧ m'.label = x.or m.label) := by
  rcases getElem?_modifyNode.1 hm' with ⟨-, hm⟩ | ⟨rfl, m, hm, rfl⟩
  · exact ⟨m', hm, rfl, rfl, .inl rfl⟩
  · exact ⟨m, hm, hf.name m, hf.kind m, .inr ⟨rfl, hf.label m⟩⟩

theorem NodesRead.modifyNode {f : Node → Node} {x : Option Label} (h : g.NodesRead es)
    (hn : g.nodes[v]? = some n) (hf : Retouches f x)
    (hes : ∀ y, y ∈ es' ↔ (∃ z ∈ x, y = .label n.name z) ∨ y ∈ es) :
    (g.modifyNode v f).NodesRead es' where
  distinct := Distinct.modifyNode h.distinct hf.name
  mentioned other := by
    have hold : .mention other ∈ es' ↔ .mention other ∈ es := by
      rw [hes]
      exact or_iff_right (by rintro ⟨_, -, heq⟩; cases heq)
    rw [hold, h.mentioned]
    constructor
    · rintro ⟨u, m, hm, rfl⟩
      obtain ⟨m', hm', hname', -⟩ := hf.exists_after hm
      exact ⟨u, m', hm', hname'⟩
    · rintro ⟨u, m', hm', rfl⟩
      obtain ⟨m, hm, hname', -⟩ := hf.exists_before hm'
      exact ⟨u, m, hm, hname'.symm⟩
  declared other k hk := by
    rcases (hes _).1 hk with ⟨_, -, heq⟩ | hold
    · cases heq
    · obtain ⟨u, m, hm, rfl, rfl⟩ := h.declared other k hold
      obtain ⟨m', hm', hname', hkind', -⟩ := hf.exists_after hm
      exact ⟨u, m', hm', hname', hkind'⟩
  plain u m hm := by
    obtain ⟨m₁, hm₁, hname₁, hkind₁, -⟩ := hf.exists_before hm
    rw [hname₁, hkind₁]
    exact (h.plain u m₁ hm₁).imp id fun hold => (hes _).2 (.inr hold)
  labelled other z hz := by
    rcases (hes _).1 hz with ⟨z', hz', heq⟩ | hold
    · cases heq
      refine ⟨v, f n, getElem?_modifyNode.2 (.inr ⟨rfl, n, hn, rfl⟩), hf.name n, ?_⟩
      rw [hf.label, hz', Option.some_or, Option.isSome_some]
    · obtain ⟨u, m, hm, rfl, hsome⟩ := h.labelled other z hold
      obtain ⟨m', hm', hname', -, hlabel'⟩ := hf.exists_after hm
      exact ⟨u, m', hm', hname', hlabel' hsome⟩
  label u m z hm hz := by
    obtain ⟨m₁, hm₁, hname₁, -, hlabel₁⟩ := hf.exists_before hm
    rw [hname₁, hes]
    rcases hlabel₁ with hsame | ⟨rfl, hor⟩
    · exact .inr (h.label u m₁ z hm₁ (hsame ▸ hz))
    · rcases Option.or_eq_some_iff.1 (hor ▸ hz) with hx | ⟨-, hold⟩
      · cases hn.symm.trans hm₁
        exact .inl ⟨z, hx, rfl⟩
      · exact .inr (h.label u m₁ z hm₁ hold)
  located u m place hm hmplace := by
    have hold : ∀ m₁ : Node, g.nodes[u]? = some m₁ → m₁.location = some place →
        (∃ source, place = .ofSource source) ∨
          ∃ x, .label m₁.name x ∈ es' ∧ x.location = some place := by
      intro m₁ hm₁ hplace₁
      refine (h.located u m₁ place hm₁ hplace₁).imp id ?_
      rintro ⟨z, hz, hloc⟩
      exact ⟨z, (hes _).2 (.inr hz), hloc⟩
    rcases getElem?_modifyNode.1 hm with ⟨-, hm⟩ | ⟨rfl, m₁, hm₁, rfl⟩
    · exact hold m hm hmplace
    · rw [hf.name]
      rcases hf.place m₁ place hmplace with hsame | hsource | ⟨z, hz, hloc⟩
      · exact hold m₁ hm₁ hsame
      · exact .inl hsource
      · cases hn.symm.trans hm₁
        exact .inr ⟨z, (hes _).2 (.inl ⟨z, hz, rfl⟩), hloc⟩

theorem NodesRead.addEdge {a b : String} {k : DependenceKind} (h : g.NodesRead es)
    (hnodes : g'.nodes = g.nodes) : g'.NodesRead (.edge a b k :: es) := by
  obtain ⟨h₁, h₂, h₃, h₄, h₅, h₆, h₇⟩ := h
  constructor <;> simpa [hnodes]

theorem NodesRead.of_edge {a b : String} {k : DependenceKind}
    (h : g.NodesRead (.edge a b k :: es)) : g.NodesRead es := by
  obtain ⟨h₁, h₂, h₃, h₄, h₅, h₆, h₇⟩ := h
  simp only [List.mem_cons, reduceCtorEq, false_or] at h₂ h₃ h₄ h₅ h₆ h₇
  exact ⟨h₁, h₂, h₃, h₄, h₅, h₆, h₇⟩

theorem mem_edges_iff {e : Edge} : e ∈ g.edges.toList ↔ ∃ i : EdgeId, g.edges[i]? = some e := by
  rw [Array.mem_toList_iff, Array.mem_iff_getElem?]

/-- Edges speak of nodes by name, so nodes may be added and changed otherwise. -/
theorem EdgesRead.of_nodes (h : g.EdgesRead es) (hedges : g'.edges = g.edges)
    (hsize : g.nodes.size ≤ g'.nodes.size) (hname : ∀ v < g.nodes.size, g'.name v = g.name v)
    (hes : ∀ a b k, .edge a b k ∈ es' ↔ .edge a b k ∈ es) : g'.EdgesRead es' where
  closed e he := by
    rw [hedges] at he
    exact ⟨Nat.lt_of_lt_of_le (h.closed e he).1 hsize, Nat.lt_of_lt_of_le (h.closed e he).2 hsize⟩
  single := by
    rw [hedges]
    exact h.single
  kinded := by
    rw [hedges]
    exact h.kinded
  edge a b k := by
    rw [hes, h.edge, hedges]
    refine exists_congr fun e => and_congr_right fun he => ?_
    rw [hname _ (h.closed e he).1, hname _ (h.closed e he).2]

theorem exists_addEdge (g : Graph) (u v : NodeId) (k : DependenceKind)
    (location : Option Location) :
    ∃ (i : EdgeId) (e : Edge), (g.addEdge u v k location).1.edges[i]? = some e ∧
      (e.source = u ∧ e.target = v) ∧
      (∀ k', e.kinds.contains k' = true ↔
        k' = k ∨ ∃ d, g.edges[i]? = some d ∧ d.kinds.contains k' = true) ∧
      e.location = Location.earlier? (g.edges[i]?.bind (·.location)) location ∧
      (∀ j : EdgeId, j ≠ i → (g.addEdge u v k location).1.edges[j]? = g.edges[j]?) ∧
      ((∃ d, g.edges[i]? = some d ∧ d.source = u ∧ d.target = v) ∨ (g.edges[i]? = none ∧
        ∀ (j : EdgeId) (d : Edge), g.edges[j]? = some d → ¬ (d.source = u ∧ d.target = v))) := by
  rw [addEdge]
  cases hi : g.edgeBetween? u v with
  | some i =>
    obtain ⟨hlt, hends, -⟩ := Array.findIdx?_eq_some_iff_getElem.1 hi
    have hget := Array.getElem?_eq_getElem hlt
    generalize g.edges[i] = d at hends hget
    have hends : d.source = u ∧ d.target = v := by simpa using hends
    refine ⟨i, d.absorb k location, ?_, hends, fun k' => ?_, ?_, fun j hj => ?_,
      .inl ⟨d, hget, hends⟩⟩
    · rw [Array.getElem?_modify, if_pos rfl, hget, Option.map_some]
    · have habsorb : (d.absorb k location).kinds = d.kinds.insert k := rfl
      rw [habsorb, Kinds.contains_insert, hget]
      simp
    · rw [hget]
      rfl
    · rw [Array.getElem?_modify, if_neg (Ne.symm hj)]
  | none =>
    refine ⟨g.edges.size, ⟨u, v, .single k, location⟩, ?_, ⟨rfl, rfl⟩, fun k' => ?_, ?_,
      fun j hj => ?_, .inr ⟨Array.getElem?_eq_none (Nat.le_refl _), fun j d hd => ?_⟩⟩
    · rw [Array.getElem?_push, if_pos rfl]
    · rw [Kinds.contains_single, Array.getElem?_eq_none (Nat.le_refl _)]
      simp
    · rw [Array.getElem?_eq_none (Nat.le_refl _)]
      cases location <;> rfl
    · rw [Array.getElem?_push, if_neg hj]
    · have := Array.findIdx?_eq_none_iff.1 hi d (Array.mem_of_getElem? hd)
      simpa using this

theorem EdgesRead.addEdge (h : g.EdgesRead es) (hu : u < g.nodes.size) (hv : v < g.nodes.size)
    (hnodes : g'.nodes = g.nodes) {k : DependenceKind} {location : Option Location}
    (hg' : g'.edges = (g.addEdge u v k location).1.edges) :
    g'.EdgesRead (.edge (g.name u) (g.name v) k :: es) := by
  obtain ⟨i, e, he, ⟨rfl, rfl⟩, hkinds, -, helse, hold⟩ := exists_addEdge g u v k location
  rw [← hg'] at he helse
  have hname : ∀ w, g'.name w = g.name w := fun w => by rw [Graph.name, Graph.name, hnodes]
  -- an edge is the one that was noted or an old one in its place
  have hcases : ∀ (j : EdgeId) (d : Edge), g'.edges[j]? = some d →
      (j = i ∧ d = e) ∨ (j ≠ i ∧ g.edges[j]? = some d) := by
    intro j d hd
    by_cases hj : j = i
    · subst hj
      exact .inl ⟨rfl, Option.some.inj (hd.symm.trans he)⟩
    · exact .inr ⟨hj, helse j hj ▸ hd⟩
  have hsingle : ∀ (j : EdgeId) (d : Edge), g.edges[j]? = some d → d.source = e.source →
      d.target = e.target → j = i := by
    intro j d hd hs ht
    rcases hold with ⟨c, hc, hcs, hct⟩ | ⟨-, hnone⟩
    · exact h.single j i d c hd hc (hs.trans hcs.symm) (ht.trans hct.symm)
    · exact absurd ⟨hs, ht⟩ (hnone j d hd)
  refine ⟨fun d hd => ?_, fun j j' d d' hd hd' hs ht => ?_, fun d hd => ?_, fun a b k' => ?_⟩
  · rw [hnodes]
    obtain ⟨j, hj⟩ := mem_edges_iff.1 hd
    rcases hcases j d hj with ⟨-, rfl⟩ | ⟨-, hj⟩
    · exact ⟨hu, hv⟩
    · exact h.closed d (mem_edges_iff.2 ⟨j, hj⟩)
  · rcases hcases j d hd with ⟨rfl, rfl⟩ | ⟨hj, hd⟩ <;>
      rcases hcases j' d' hd' with ⟨rfl, rfl⟩ | ⟨hj', hd'⟩
    · rfl
    · exact absurd (hsingle j' d' hd' hs.symm ht.symm) hj'
    · exact absurd (hsingle j d hd hs ht) hj
    · exact h.single j j' d d' hd hd' hs ht
  · obtain ⟨j, hj⟩ := mem_edges_iff.1 hd
    rcases hcases j d hj with ⟨-, rfl⟩ | ⟨-, hj⟩
    · exact ⟨k, (hkinds k).2 (.inl rfl)⟩
    · exact h.kinded d (mem_edges_iff.2 ⟨j, hj⟩)
  · rw [List.mem_cons, h.edge]
    simp only [hname]
    constructor
    · rintro (heq | ⟨d, hd, rfl, rfl, hk'⟩)
      · cases heq
        exact ⟨e, mem_edges_iff.2 ⟨i, he⟩, rfl, rfl, (hkinds _).2 (.inl rfl)⟩
      · obtain ⟨j, hj⟩ := mem_edges_iff.1 hd
        by_cases hji : j = i
        · subst hji
          rcases hold with ⟨c, hc, hcs, hct⟩ | ⟨hnone, -⟩
          · cases hj.symm.trans hc
            exact ⟨e, mem_edges_iff.2 ⟨j, he⟩, by rw [hcs], by rw [hct],
              (hkinds _).2 (.inr ⟨d, hj, hk'⟩)⟩
          · rw [hnone] at hj
            cases hj
        · exact ⟨d, mem_edges_iff.2 ⟨j, (helse j hji).trans hj⟩, rfl, rfl, hk'⟩
    · rintro ⟨d, hd, rfl, rfl, hk'⟩
      obtain ⟨j, hj⟩ := mem_edges_iff.1 hd
      rcases hcases j d hj with ⟨rfl, rfl⟩ | ⟨-, hj⟩
      · rcases (hkinds k').1 hk' with rfl | ⟨c, hc, hck⟩
        · exact .inl rfl
        · rcases hold with ⟨c', hc', hcs, hct⟩ | ⟨hnone, -⟩
          · cases hc.symm.trans hc'
            exact .inr ⟨c, mem_edges_iff.2 ⟨j, hc⟩, by rw [hcs], by rw [hct], hck⟩
          · rw [hnone] at hc
            cases hc
      · exact .inr ⟨d, mem_edges_iff.2 ⟨j, hj⟩, rfl, rfl, hk'⟩

theorem EdgesRead.contains_iff {e : Edge} {k : DependenceKind} (h : g.EdgesRead es)
    (hdistinct : g.Distinct) (he : e ∈ g.edges.toList) :
    e.kinds.contains k = true ↔ .edge (g.name e.source) (g.name e.target) k ∈ es := by
  rw [h.edge]
  refine ⟨fun hk => ⟨e, he, rfl, rfl, hk⟩, ?_⟩
  rintro ⟨d, hd, hs, ht, hk⟩
  obtain ⟨hes, het⟩ := h.closed e he
  obtain ⟨hds, hdt⟩ := h.closed d hd
  obtain ⟨i, hi⟩ := mem_edges_iff.1 he
  obtain ⟨j, hj⟩ := mem_edges_iff.1 hd
  cases h.single j i d e hj hi (hdistinct.eq_of_name hds hes hs) (hdistinct.eq_of_name hdt het ht)
  cases hj.symm.trans hi
  exact hk

theorem lt_size (hn : g.nodes[v]? = some n) : v < g.nodes.size :=
  (Array.getElem?_eq_some_iff.1 hn).1

theorem name_addNode (hv : v < g.nodes.size) : (g.addNode name kind).1.name v = g.name v := by
  rw [Graph.name, Graph.name, addNode, Array.getElem?_push, if_neg (Nat.ne_of_lt hv)]

theorem size_addNode : g.nodes.size ≤ (g.addNode name kind).1.nodes.size := by
  rw [addNode, Array.size_push]
  exact Nat.le_succ _

theorem name_modifyNode {f : Node → Node} (hf : ∀ m, (f m).name = m.name) (u : NodeId) :
    (g.modifyNode v f).name u = g.name u := by
  rw [Graph.name, Graph.name, modifyNode, Array.getElem?_modify]
  split
  · cases g.nodes[u]? <;> simp [hf]
  · rfl

theorem Reads.addNode {D : Prop} (h : g.Reads es) (hnone : g.idOf? name = none)
    (hkind : kind = .function ∨ D)
    (hes : ∀ x, x ∈ es' ↔ x = .mention name ∨ (D ∧ x = .node name kind) ∨ x ∈ es) :
    (g.addNode name kind).1.Reads es' := by
  refine ⟨h.nodes.addNode (fun v n => ne_of_idOf?_eq_none hnone) hkind hes,
    h.edges.of_nodes rfl size_addNode (fun v => name_addNode) fun a b k => ?_⟩
  rw [hes]
  simp

theorem Reads.again {D : Prop} (h : g.Reads es) (hn : g.nodes[v]? = some n)
    (hes : ∀ x, x ∈ es' ↔ x = .mention n.name ∨ (D ∧ x = .node n.name n.kind) ∨ x ∈ es) :
    g.Reads es' := by
  refine ⟨h.nodes.again hn hes, h.edges.of_nodes rfl (Nat.le_refl _) (fun _ _ => rfl)
    fun a b k => ?_⟩
  rw [hes]
  simp

theorem Reads.modifyNode {f : Node → Node} {x : Option Label} (h : g.Reads es)
    (hn : g.nodes[v]? = some n) (hf : Retouches f x)
    (hes : ∀ y, y ∈ es' ↔ (∃ z ∈ x, y = .label n.name z) ∨ y ∈ es) :
    (g.modifyNode v f).Reads es' := by
  refine ⟨h.nodes.modifyNode hn hf hes, h.edges.of_nodes rfl (Nat.le_of_eq Array.size_modify.symm)
    (fun u _ => name_modifyNode hf.name u) fun a b k => ?_⟩
  rw [hes]
  simp

theorem Reads.ensure (h : g.Reads es) (hok : g.ensure name kind = .ok (g', v)) :
    g'.Reads (.mention name :: .node name kind :: es) ∧
      ∃ n, g'.nodes[v]? = some n ∧ n.name = name := by
  rw [Graph.ensure] at hok
  cases hid : g.idOf? name with
  | none =>
    rw [hid] at hok
    cases hok
    exact ⟨h.addNode hid (.inr trivial) fun x => by simp,
      _, getElem?_addNode.2 (.inr ⟨rfl, rfl⟩), rfl⟩
  | some w =>
    obtain ⟨n, hn, rfl⟩ := getElem?_of_idOf? hid
    rw [hid] at hok
    simp only [hn] at hok
    split at hok
    · rename_i hkind
      cases hok
      subst hkind
      exact ⟨h.again (D := True) hn fun x => by simp, n, hn, rfl⟩
    · cases hok

theorem Reads.mention (h : g.Reads es) (name : String) :
    (g.mention name).1.Reads (.mention name :: es) := by
  rw [Graph.mention]
  cases hid : g.idOf? name with
  | none => exact h.addNode (D := False) hid (.inl rfl) fun x => by simp
  | some v =>
    obtain ⟨n, hn, rfl⟩ := getElem?_of_idOf? hid
    exact h.again (D := False) hn fun x => by simp

theorem getElem?_mention (g : Graph) (name : String) :
    ∃ n, (g.mention name).1.nodes[(g.mention name).2]? = some n ∧ n.name = name := by
  rw [Graph.mention]
  cases hid : g.idOf? name with
  | none => exact ⟨_, getElem?_addNode.2 (.inr ⟨rfl, rfl⟩), rfl⟩
  | some v => exact getElem?_of_idOf? hid

theorem mention_keeps (g : Graph) (name : String) : g.nodes.size ≤ (g.mention name).1.nodes.size ∧
    ∀ v < g.nodes.size, (g.mention name).1.name v = g.name v := by
  rw [Graph.mention]
  split
  · exact ⟨Nat.le_refl _, fun _ _ => rfl⟩
  · exact ⟨size_addNode, fun _ => name_addNode⟩

theorem mention_ends (g : Graph) (a b : String) :
    let h := ((g.mention a).1.mention b).1
    ((g.mention a).2 < h.nodes.size ∧ h.name (g.mention a).2 = a) ∧
      ((g.mention a).1.mention b).2 < h.nodes.size ∧ h.name ((g.mention a).1.mention b).2 = b := by
  obtain ⟨m, hm, rfl⟩ := getElem?_mention g a
  obtain ⟨n, hn, rfl⟩ := getElem?_mention (g.mention m.name).1 b
  obtain ⟨hsize, hkeep⟩ := mention_keeps (g.mention m.name).1 n.name
  have hu := lt_size hm
  exact ⟨⟨Nat.lt_of_lt_of_le hu hsize, by rw [hkeep _ hu, name_eq hm]⟩, lt_size hn, name_eq hn⟩

theorem getElem?_of_find (h : g.find name = .ok v) : ∃ n, g.nodes[v]? = some n ∧ n.name = name := by
  rw [find] at h
  split at h
  · rename_i hid
    cases h
    exact getElem?_of_idOf? hid
  · cases h

theorem Reads.locate {source : Source} (h : g.Reads es)
    (hok : g.locate name (.ofSource source) = .ok g') : g'.Reads es := by
  obtain ⟨v, hv, hok⟩ := bind_eq_ok.1 hok
  cases hok
  obtain ⟨n, hn, rfl⟩ := getElem?_of_find hv
  refine h.modifyNode (x := none) hn ⟨fun _ => rfl, fun _ => rfl, fun _ => rfl,
    fun m place hplace => ?_⟩ fun y => by simp
  rcases Option.or_eq_some_iff.1 hplace with hplace | ⟨-, hplace⟩
  · exact .inl hplace
  · exact .inr (.inl ⟨source, (Option.some.inj hplace).symm⟩)

theorem Reads.attach {x : Label} (h : g.Reads es) (hok : g.attach name x = .ok g') :
    g'.Reads (.label name x :: es) := by
  obtain ⟨v, hv, hok⟩ := bind_eq_ok.1 hok
  cases hok
  obtain ⟨n, hn, rfl⟩ := getElem?_of_find hv
  refine h.modifyNode (x := some x) hn ⟨fun _ => rfl, fun _ => rfl, fun _ => rfl,
    fun m place hplace => ?_⟩ fun y => by simp
  rcases Option.or_eq_some_iff.1 hplace with hplace | ⟨-, hplace⟩
  · exact .inl hplace
  · exact .inr (.inr ⟨x, rfl, hplace⟩)

theorem nodes_addEdge (g : Graph) (u v : NodeId) (k : DependenceKind)
    (location : Option Location) : (g.addEdge u v k location).1.nodes = g.nodes := by
  rw [addEdge]
  split <;> rfl

end Graph

def Clause.ofLink (a b : String) (k : DependenceKind) : List Clause :=
  [.edge a b k, .mention b, .mention a]

namespace Graph

variable {g g' : Graph} {es : List Clause}

theorem Reads.connect (h : g.Reads es) (a b : String) (k : DependenceKind)
    (location : Option Location) :
    (g.connect a b k location).1.Reads (Clause.ofLink a b k ++ es) := by
  have h₂ := (h.mention a).mention b
  obtain ⟨⟨hu, hname⟩, hv, hname'⟩ := mention_ends g a b
  have hnodes := nodes_addEdge ((g.mention a).1.mention b).1 (g.mention a).2
    ((g.mention a).1.mention b).2 k location
  have hedges := h₂.edges.addEdge hu hv hnodes rfl
  rw [hname, hname'] at hedges
  exact ⟨h₂.nodes.addEdge hnodes, hedges⟩

end Graph

namespace Clause

def ofDeclaration (kind : NodeKind) (d : Declaration) : List Clause :=
  [.mention d.name, .node d.name kind]

/-- What a label says, for the declared kind of its element. -/
def ofLabel (kind : NodeKind) (entry : String × Label) : List Clause :=
  [.label entry.1 entry.2, .mention entry.1, .node entry.1 kind]

/-- What a call says: at a known place it goes through a node of its own. -/
def ofCall (c : CallDecl) : List Clause :=
  match c.site with
  | none => ofLink c.caller c.callee .call
  | some site =>
    match Graph.siteName c.caller c.callee (.ofSource site) with
    | .error _ => []
    | .ok name =>
      ofLink name c.callee .call ++ (ofLink c.caller name .call ++
        [.mention name, .node name .callSite])

def ofFlow (kind : DependenceKind) (f : FlowDecl) : List Clause := ofLink f.source f.target kind

end Clause

namespace Graph

variable {g g' : Graph} {es : List Clause}

theorem Reads.declare {kind : NodeKind} {d : Declaration} (h : g.Reads es)
    (hok : g.declare kind d = .ok g') : g'.Reads (Clause.ofDeclaration kind d ++ es) := by
  obtain ⟨⟨g₁, v⟩, hensure, hok⟩ := bind_eq_ok.1 hok
  have h₁ := (h.ensure hensure).1
  dsimp only at hok
  split at hok
  · exact h₁.locate hok
  · cases hok
    exact h₁

theorem Reads.addLabelled {kind : NodeKind} {entry : String × Label} (h : g.Reads es)
    (hok : g.addLabelled kind entry = .ok g') : g'.Reads (Clause.ofLabel kind entry ++ es) := by
  obtain ⟨⟨g₁, v⟩, hensure, hok⟩ := bind_eq_ok.1 hok
  exact (h.ensure hensure).1.attach hok

theorem Reads.addFlow (kind : DependenceKind) (h : g.Reads es) (f : FlowDecl) :
    (g.addFlow kind f).Reads (Clause.ofFlow kind f ++ es) :=
  h.connect f.source f.target kind _

theorem Reads.callAt {caller callee name : String} {site : Source} (h : g.Reads es)
    (hok : g.callAt caller callee name (.ofSource site) = .ok g') :
    g'.Reads (Clause.ofLink name callee .call ++ (Clause.ofLink caller name .call ++
      ([.mention name, .node name .callSite] ++ es))) := by
  obtain ⟨⟨g₁, v⟩, hensure, hok⟩ := bind_eq_ok.1 hok
  obtain ⟨h₁, n, hn, -⟩ := h.ensure hensure
  have h₂ : (g₁.modifyNode v fun n => { n with location := some (.ofSource site) }).Reads
      (.mention name :: .node name .callSite :: es) :=
    h₁.modifyNode (x := none) hn ⟨fun _ => rfl, fun _ => rfl, fun _ => rfl,
      fun m place hplace => .inr (.inl ⟨site, (Option.some.inj hplace).symm⟩)⟩ fun y => by simp
  rw [← Except.ok.inj hok]
  exact (h₂.connect caller name .call _).connect name callee .call _

theorem Reads.addCall {c : CallDecl} (h : g.Reads es) (hok : g.addCall c = .ok (.ok g')) :
    g'.Reads (Clause.ofCall c ++ es) := by
  rw [Graph.addCall] at hok
  rw [Clause.ofCall]
  cases hsite : c.site with
  | none =>
    rw [hsite] at hok
    cases hok
    exact h.connect c.caller c.callee .call none
  | some site =>
    rw [hsite] at hok
    obtain ⟨name, hname, hok⟩ := bind_eq_ok.1 hok
    have hcall := h.callAt (Except.ok.inj hok)
    simp only [hname, List.append_assoc]
    exact hcall

end Graph

namespace Draft

variable {β : Type} {d d' : Draft} {es : List Clause}

theorem errors_follow {r : Except GraphError Graph} :
    (d.follow r).errors = [] ↔ d.errors = [] ∧ ∃ g, r = .ok g := by
  cases r <;> simp [follow]

theorem reads_foldl {f : Draft → β → Draft} {t : Graph → β → Except GraphError Graph}
    {read : β → List Clause} (hf : ∀ d b, f d b = d.follow (t d.graph b))
    (hstep : ∀ {g g' : Graph} {es : List Clause} {b : β}, g.Reads es → t g b = .ok g' →
      g'.Reads (read b ++ es)) :
    ∀ {bs : List β} {d : Draft} {es : List Clause}, (bs.foldl f d).errors = [] →
      d.errors = [] ∧ (d.graph.Reads es →
        (bs.foldl f d).graph.Reads (bs.flatMap read ++ es)) := by
  intro bs
  induction bs with
  | nil => exact fun h => ⟨h, id⟩
  | cons b bs ih =>
    intro d es herrors
    obtain ⟨h₁, hreads⟩ := @ih _ (read b ++ es) herrors
    rw [hf] at h₁ hreads
    obtain ⟨hd, g, hg⟩ := errors_follow.1 h₁
    rw [hg] at hreads
    refine ⟨hd, fun h => ?_⟩
    rw [List.foldl_cons, hf, hg]
    refine (hreads (hstep h hg)).congr fun x => ?_
    simp only [List.flatMap_cons, List.mem_append]
    tauto

theorem reads_addCalls : ∀ (cs : List CallDecl) (d d' : Draft) (es : List Clause),
    cs.foldlM addCall d = .ok d' → d'.errors = [] →
    d.errors = [] ∧ (d.graph.Reads es → d'.graph.Reads (cs.flatMap Clause.ofCall ++ es)) := by
  intro cs
  induction cs with
  | nil =>
    intro d d' es hok herrors
    cases hok
    exact ⟨herrors, id⟩
  | cons c cs ih =>
    intro d d' es hok herrors
    rw [List.foldlM_cons] at hok
    obtain ⟨d₁, hd₁, hok⟩ := bind_eq_ok.1 hok
    obtain ⟨h₁, hreads⟩ := ih d₁ d' (Clause.ofCall c ++ es) hok herrors
    obtain ⟨r, hr, hd₁⟩ := bind_eq_ok.1 hd₁
    cases hd₁
    obtain ⟨hd, g, rfl⟩ := errors_follow.1 h₁
    refine ⟨hd, fun h => (hreads (h.addCall hr)).congr fun x => ?_⟩
    simp only [List.flatMap_cons, List.mem_append]
    tauto

end Draft

namespace Clause

def ofProgram (ir : IrFacts) (pdg : PdgFacts) (labels : Labels) : List Clause :=
  pdg.control.flatMap (ofFlow .control) ++ (ir.defUse.flatMap (ofFlow .data) ++
    (ir.calls.flatMap ofCall ++ (labels.globals.toList.flatMap (ofLabel .global) ++
      (labels.functions.toList.flatMap (ofLabel .function) ++
        (ir.globals.flatMap (ofDeclaration .global) ++
          (ir.functions.flatMap (ofDeclaration .function) ++ []))))))

end Clause

namespace Graph

theorem reads_addFlows (kind : DependenceKind) : ∀ (fs : List FlowDecl) (g : Graph)
    (es : List Clause), g.Reads es →
    (fs.foldl (addFlow kind) g).Reads (fs.flatMap (Clause.ofFlow kind) ++ es) := by
  intro fs
  induction fs with
  | nil => exact fun g es h => h
  | cons f fs ih =>
    intro g es h
    refine (ih _ _ (h.addFlow kind f)).congr fun x => ?_
    simp only [List.flatMap_cons, List.mem_append]
    tauto

theorem reads_declared {ir : IrFacts} {labels : Labels}
    (herrors : (declared ir labels).errors = []) :
    (declared ir labels).graph.Reads (labels.globals.toList.flatMap (Clause.ofLabel .global) ++
      (labels.functions.toList.flatMap (Clause.ofLabel .function) ++
        (ir.globals.flatMap (Clause.ofDeclaration .global) ++
          (ir.functions.flatMap (Clause.ofDeclaration .function) ++ [])))) := by
  rw [declared] at herrors ⊢
  obtain ⟨h₃, hr₃⟩ := Draft.reads_foldl (f := Draft.addLabelled .global)
    (t := fun g => g.addLabelled .global) (fun _ _ => rfl) Reads.addLabelled herrors
  obtain ⟨h₂, hr₂⟩ := Draft.reads_foldl (f := Draft.addLabelled .function)
    (t := fun g => g.addLabelled .function) (fun _ _ => rfl) Reads.addLabelled h₃
  obtain ⟨h₁, hr₁⟩ := Draft.reads_foldl (f := Draft.declare .global)
    (t := fun g => g.declare .global) (fun _ _ => rfl) Reads.declare h₂
  obtain ⟨-, hr₀⟩ := Draft.reads_foldl (f := Draft.declare .function)
    (t := fun g => g.declare .function) (fun _ _ => rfl) Reads.declare h₁
  exact hr₃ (hr₂ (hr₁ (hr₀ reads_empty)))

/-- Only declarations and calls can fail; dependences are added to whatever they leave. -/
theorem ofProgram_eq_ok {ir : IrFacts} {pdg : PdgFacts} {labels : Labels} {g : Graph} :
    ofProgram ir pdg labels = .ok (.ok g) ↔
      ∃ d, ir.calls.foldlM Draft.addCall (declared ir labels) = .ok d ∧ d.errors = [] ∧
        g = pdg.control.foldl (addFlow .control) (ir.defUse.foldl (addFlow .data) d.graph) := by
  constructor
  · intro h
    obtain ⟨d, hd, h⟩ := bind_eq_ok.1 h
    dsimp only at h
    split at h
    · rename_i herrors
      cases h
      exact ⟨d, hd, herrors, rfl⟩
    · cases h
  · rintro ⟨d, hd, herrors, rfl⟩
    refine bind_eq_ok.2 ⟨d, hd, ?_⟩
    simp only [herrors]
    rfl

theorem reads_ofProgram {ir : IrFacts} {pdg : PdgFacts} {labels : Labels} {g : Graph}
    (h : ofProgram ir pdg labels = .ok (.ok g)) : g.Reads (Clause.ofProgram ir pdg labels) := by
  obtain ⟨d, hd, herrors, rfl⟩ := ofProgram_eq_ok.1 h
  obtain ⟨hdeclared, hreads⟩ := Draft.reads_addCalls _ _ _ _ hd herrors
  exact reads_addFlows .control _ _ _ (reads_addFlows .data _ _ _
    (hreads (reads_declared hdeclared)))

end Graph

end Enclave
