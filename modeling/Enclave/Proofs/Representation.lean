import Enclave.Proofs.Collections
import Enclave.Proofs.Editing

/-!
# Enclave.Proofs.Representation

What holds of a graph after any sequence of operations on it, of which some may have failed. Names
and pairs of nodes are looked up exactly; an edge stands for all dependences that were noted between
the names of its ends, with just their kinds and the earliest of their places; and whatever an
identifier stands for, it goes on standing for.

* `records_foldl`, `grows_foldl`: this holds of the graph after every sequence of operations.
-/

namespace Enclave

open Std

attribute [local instance] lexOrd

namespace Location

variable {S S' : Location → Prop} {o o' : Option Location}

theorem key_injective {p q : Location} (h : p.key = q.key) : p = q := by
  obtain ⟨file, ⟨⟨a, b⟩, ⟨c, d⟩⟩, precision⟩ := p
  obtain ⟨file', ⟨⟨a', b'⟩, ⟨c', d'⟩⟩, precision'⟩ := q
  simp only [key, Prod.mk.injEq, UInt32.toNat_inj] at h
  obtain ⟨rfl, rfl, rfl, rfl, rfl, hrank⟩ := h
  cases precision <;> cases precision' <;> first | rfl | cases hrank

instance : TransOrd Location := inferInstanceAs (TransCmp (compareOn key))

instance : LawfulEqOrd Location where
  eq_of_compare h := key_injective (LawfulEqOrd.eq_of_compare h)

/-- The earliest of some places, if there are any. -/
def Earliest (S : Location → Prop) : Option Location → Prop
  | none => ∀ p, ¬ S p
  | some p => S p ∧ ∀ q, S q → (compare p q).isLE = true

theorem Earliest.unique (h : Earliest S o) (h' : Earliest S o') : o = o' := by
  cases o with
  | none =>
    cases o' with
    | none => rfl
    | some q => exact absurd h'.1 (h q)
  | some p =>
    cases o' with
    | none => exact absurd h.1 (h' p)
    | some q =>
      have heq := OrientedCmp.isLE_antisymm (h.2 q h'.1) (h'.2 p h.1)
      rw [LawfulEqOrd.eq_of_compare heq]

theorem Earliest.add (h : Earliest S o) (hS : ∀ p, S' p ↔ o' = some p ∨ S p) :
    Earliest S' (earlier? o o') := by
  cases o' with
  | none =>
    have hsame : ∀ p, S' p ↔ S p := fun p => (hS p).trans (or_iff_right (by simp))
    cases o with
    | none => exact fun p hp => h p ((hsame p).1 hp)
    | some p => exact ⟨(hsame p).2 h.1, fun q hq => h.2 q ((hsame q).1 hq)⟩
  | some q =>
    have hq : S' q := (hS q).2 (.inl rfl)
    cases o with
    | none =>
      refine ⟨hq, fun r hr => ?_⟩
      rcases (hS r).1 hr with heq | hr
      · cases heq
        exact ReflCmp.isLE_rfl
      · exact absurd hr (h r)
    | some p =>
      have hp : S' p := (hS p).2 (.inr h.1)
      show Earliest S' (some (p.earlier q))
      rw [earlier]
      by_cases hlt : (compare q p).isLT = true
      · have hle : (compare q p).isLE = true := by
          cases hcmp : compare q p <;> simp_all
        rw [if_pos hlt]
        refine ⟨hq, fun r hr => ?_⟩
        rcases (hS r).1 hr with heq | hr
        · cases heq
          exact ReflCmp.isLE_rfl
        · exact TransCmp.isLE_trans hle (h.2 r hr)
      · have hle : (compare p q).isLE = true := by
          rw [OrientedOrd.eq_swap]
          cases hcmp : compare q p <;> simp_all
        rw [if_neg hlt]
        refine ⟨hp, fun r hr => ?_⟩
        rcases (hS r).1 hr with heq | hr
        · cases heq
          exact hle
        · exact h.2 r hr

end Location

def Link.clause (x : Link) : Clause := .edge x.source x.target x.kind

/-- The place was given with a dependence between the two names. -/
def Supplied (log : List Link) (a b : String) (p : Location) : Prop :=
  ∃ x ∈ log, x.source = a ∧ x.target = b ∧ x.location = some p

namespace Graph

variable {g g' : Graph} {log more : List Link} {u v : NodeId}

/-- The graph holds the dependences of the log: an edge for each pair, with the earliest place. -/
structure Records (g : Graph) (log : List Link) : Prop where
  distinct : g.Distinct
  edges : g.EdgesRead (log.map Link.clause)
  placed : ∀ e ∈ g.edges.toList,
    Location.Earliest (Supplied log (g.name e.source) (g.name e.target)) e.location

theorem records_empty : Records {} [] :=
  ⟨reads_empty.nodes.distinct, reads_empty.edges, by simp⟩

/-- Changes to nodes leave what is recorded, if names stay and no two nodes come to share one. -/
theorem Records.of_nodes (h : g.Records log) (hdistinct : g'.Distinct)
    (hedges : g'.edges = g.edges) (hsize : g.nodes.size ≤ g'.nodes.size)
    (hname : ∀ v < g.nodes.size, g'.name v = g.name v) : g'.Records log := by
  refine ⟨hdistinct, h.edges.of_nodes hedges hsize hname fun _ _ _ => Iff.rfl, fun e he => ?_⟩
  rw [hedges] at he
  obtain ⟨hs, ht⟩ := h.edges.closed e he
  rw [hname _ hs, hname _ ht]
  exact h.placed e he

theorem supplied_cons {x : Link} {a b : String} {p : Location} : Supplied (x :: log) a b p ↔
    (x.source = a ∧ x.target = b ∧ x.location = some p) ∨ Supplied log a b p := by
  simp [Supplied]

theorem Records.addEdge {k : DependenceKind} {location : Option Location} (h : g.Records log)
    (hu : u < g.nodes.size) (hv : v < g.nodes.size) :
    (g.addEdge u v k location).1.Records (⟨g.name u, g.name v, k, location⟩ :: log) := by
  have hnodes := nodes_addEdge g u v k location
  have hname : ∀ w, (g.addEdge u v k location).1.name w = g.name w := fun w => by
    rw [Graph.name, Graph.name, hnodes]
  refine ⟨?_, h.edges.addEdge hu hv hnodes rfl, fun e' he' => ?_⟩
  · rw [Distinct, hnodes]
    exact h.distinct
  obtain ⟨i, e, he, ⟨rfl, rfl⟩, -, hplace, helse, hold⟩ := exists_addEdge g u v k location
  obtain ⟨j, hj⟩ := mem_edges_iff.1 he'
  rw [hname, hname]
  by_cases hji : j = i
  · -- the edge at which the dependence was noted
    subst hji
    cases hj.symm.trans he
    rw [hplace]
    refine Location.Earliest.add (S := Supplied log (g.name e'.source) (g.name e'.target)) ?_
      fun p => by simp [supplied_cons]
    rcases hold with ⟨d, hd, hs, ht⟩ | ⟨hnone, hnew⟩
    · rw [hd, ← hs, ← ht]
      exact h.placed d (mem_edges_iff.2 ⟨j, hd⟩)
    · rw [hnone]
      rintro p ⟨x, hx, hs, ht, -⟩
      -- a dependence between these names would have its edge already
      obtain ⟨d, hd, hds, hdt, -⟩ := (h.edges.edge _ _ x.kind).1 (List.mem_map_of_mem hx)
      obtain ⟨i, hi⟩ := mem_edges_iff.1 hd
      obtain ⟨hdu, hdv⟩ := h.edges.closed d hd
      exact hnew i d hi ⟨h.distinct.eq_of_name hdu hu (hds.trans hs),
        h.distinct.eq_of_name hdv hv (hdt.trans ht)⟩
  · rw [helse j hji] at hj
    have hmem := mem_edges_iff.2 ⟨j, hj⟩
    obtain ⟨hs, ht⟩ := h.edges.closed e' hmem
    have hother : ¬ (g.name e.source = g.name e'.source ∧ g.name e.target = g.name e'.target) := by
      rintro ⟨hsource, htarget⟩
      have hends := And.intro (h.distinct.eq_of_name hu hs hsource)
        (h.distinct.eq_of_name hv ht htarget)
      rcases hold with ⟨d, hd, hds, hdt⟩ | ⟨-, hnew⟩
      · exact hji (h.edges.single j i e' d hj hd (hends.1 ▸ hds.symm) (hends.2 ▸ hdt.symm))
      · exact hnew j e' hj ⟨hends.1.symm, hends.2.symm⟩
    have hsame : ∀ p, Supplied (⟨g.name e.source, g.name e.target, k, location⟩ :: log)
        (g.name e'.source) (g.name e'.target) p ↔
          Supplied log (g.name e'.source) (g.name e'.target) p := fun p =>
      supplied_cons.trans (or_iff_right fun h => hother ⟨h.1, h.2.1⟩)
    rw [funext fun p => propext (hsame p)]
    exact h.placed e' hmem

theorem Edits.records (hg : g.Records log) (h : g.Edits more g') : g'.Records (more ++ log) := by
  induction h with
  | refl => exact hg
  | node _ hnone ih =>
    exact ih.of_nodes (ih.distinct.addNode fun v n => ne_of_idOf?_eq_none hnone) rfl size_addNode
      fun v => name_addNode
  | touch _ hname _ ih =>
    exact ih.of_nodes (ih.distinct.modifyNode hname) rfl (Nat.le_of_eq Array.size_modify.symm)
      fun v _ => name_modifyNode hname v
  | link _ _ _ hu hv ih => exact ih.addEdge hu hv

/-- Identifiers keep what they stand for: a node its name and kind, an edge its two ends. -/
structure Grows (g h : Graph) : Prop where
  nodes : ∀ (v : NodeId) (n : Node), g.nodes[v]? = some n →
    ∃ n', h.nodes[v]? = some n' ∧ n'.name = n.name ∧ n'.kind = n.kind
  edges : ∀ (i : EdgeId) (e : Edge), g.edges[i]? = some e →
    ∃ e', h.edges[i]? = some e' ∧ e'.source = e.source ∧ e'.target = e.target

theorem Grows.refl (g : Graph) : g.Grows g :=
  ⟨fun _ n hn => ⟨n, hn, rfl, rfl⟩, fun _ e he => ⟨e, he, rfl, rfl⟩⟩

theorem Grows.trans {h : Graph} (hg : g.Grows g') (hh : g'.Grows h) : g.Grows h where
  nodes v n hn := by
    obtain ⟨n', hn', hname, hkind⟩ := hg.nodes v n hn
    obtain ⟨m, hm, hname', hkind'⟩ := hh.nodes v n' hn'
    exact ⟨m, hm, hname'.trans hname, hkind'.trans hkind⟩
  edges i e he := by
    obtain ⟨e', he', hs, ht⟩ := hg.edges i e he
    obtain ⟨d, hd, hs', ht'⟩ := hh.edges i e' he'
    exact ⟨d, hd, hs'.trans hs, ht'.trans ht⟩

theorem grows_addEdge (g : Graph) (u v : NodeId) (k : DependenceKind)
    (location : Option Location) : g.Grows (g.addEdge u v k location).1 where
  nodes w n hn := ⟨n, by rw [nodes_addEdge, hn], rfl, rfl⟩
  edges j d hd := by
    obtain ⟨i, e, he, ⟨rfl, rfl⟩, -, -, helse, hold⟩ := exists_addEdge g u v k location
    by_cases hji : j = i
    · subst hji
      refine ⟨e, he, ?_⟩
      rcases hold with ⟨c, hc, hs, ht⟩ | ⟨hnone, -⟩
      · cases hd.symm.trans hc
        exact ⟨hs.symm, ht.symm⟩
      · rw [hnone] at hd
        cases hd
    · exact ⟨d, (helse j hji).trans hd, rfl, rfl⟩

theorem Edits.grows (h : g.Edits more g') : g.Grows g' := by
  induction h with
  | refl => exact .refl g
  | node _ _ ih =>
    exact ih.trans ⟨fun v n hn => ⟨n, getElem?_addNode.2 (.inl hn), rfl, rfl⟩,
      fun _ e he => ⟨e, he, rfl, rfl⟩⟩
  | @touch _ _ w f _ hname hkind ih =>
    refine ih.trans ⟨fun v n hn => ?_, fun _ e he => ⟨e, he, rfl, rfl⟩⟩
    by_cases hvw : v = w
    · exact ⟨f n, getElem?_modifyNode.2 (.inr ⟨hvw, n, hn, rfl⟩), hname n, hkind n⟩
    · exact ⟨n, getElem?_modifyNode.2 (.inl ⟨hvw, hn⟩), rfl, rfl⟩
  | link kind location _ _ _ ih => exact ih.trans (grows_addEdge _ _ _ kind location)

/--
The graph is well represented, and holds the dependences of the log. Identifiers are positions among
the nodes and edges.
-/
structure Represents (g : Graph) (log : List Link) : Prop where
  names : g.Distinct
  /-- A name is looked up as its node, and as no other. -/
  byName : ∀ name v, g.idOf? name = some v ↔ ∃ n, g.nodes[v]? = some n ∧ n.name = name
  ends : g.Closed
  pairs : ∀ (i j : EdgeId) (d e : Edge), g.edges[i]? = some d → g.edges[j]? = some e →
    d.source = e.source → d.target = e.target → i = j
  /-- An ordered pair of nodes is looked up as its edge, and as no other. -/
  byPair : ∀ u v i, g.edgeBetween? u v = some i ↔
    ∃ e, g.edges[i]? = some e ∧ e.source = u ∧ e.target = v
  outgoing : ∀ u, (g.outgoing u).Pairwise (· < ·) ∧
    ∀ i, i ∈ g.outgoing u ↔ ∃ e, g.edges[i]? = some e ∧ e.source = u
  incoming : ∀ v, (g.incoming v).Pairwise (· < ·) ∧
    ∀ i, i ∈ g.incoming v ↔ ∃ e, g.edges[i]? = some e ∧ e.target = v
  /-- Every dependence of the log has its edge. -/
  noted : ∀ x ∈ log, ∃ e ∈ g.edges.toList, g.name e.source = x.source ∧ g.name e.target = x.target
  /-- An edge has the kinds of the log's dependences between its ends, of which there are some. -/
  kinds : ∀ e ∈ g.edges.toList, (∃ k, e.kinds.contains k = true) ∧
    ∀ k, e.kinds.contains k = true ↔
      ∃ x ∈ log, x.source = g.name e.source ∧ x.target = g.name e.target ∧ x.kind = k
  /-- It has the earliest place that the log gives with one of them, and none if it gives none. -/
  location : ∀ e ∈ g.edges.toList, ∀ o, e.location = o ↔
    Location.Earliest (Supplied log (g.name e.source) (g.name e.target)) o

theorem Distinct.idOf?_eq_some_iff (hg : g.Distinct) {name : String} :
    g.idOf? name = some v ↔ ∃ n, g.nodes[v]? = some n ∧ n.name = name := by
  refine ⟨getElem?_of_idOf?, ?_⟩
  rintro ⟨n, hn, rfl⟩
  cases hid : g.idOf? n.name with
  | none => exact absurd rfl (ne_of_idOf?_eq_none hid hn)
  | some w =>
    obtain ⟨m, hm, hname⟩ := getElem?_of_idOf? hid
    rw [hg w v m n hm hn hname]

/-- Where no two edges share both ends, an edge is found between its ends and nowhere else. -/
theorem edgeBetween?_eq_some_iff (hsingle : ∀ (i j : EdgeId) (d e : Edge), g.edges[i]? = some d →
    g.edges[j]? = some e → d.source = e.source → d.target = e.target → i = j) {i : EdgeId} :
    g.edgeBetween? u v = some i ↔ ∃ e, g.edges[i]? = some e ∧ e.source = u ∧ e.target = v := by
  have hfound : ∀ {i}, g.edgeBetween? u v = some i →
      ∃ e, g.edges[i]? = some e ∧ e.source = u ∧ e.target = v := by
    intro i hi
    obtain ⟨hlt, hends, -⟩ := Array.findIdx?_eq_some_iff_getElem.1 hi
    exact ⟨_, Array.getElem?_eq_getElem hlt, by simpa using hends⟩
  refine ⟨hfound, ?_⟩
  rintro ⟨e, he, rfl, rfl⟩
  cases hid : g.edgeBetween? e.source e.target with
  | none =>
    have := Array.findIdx?_eq_none_iff.1 hid e (Array.mem_of_getElem? he)
    simp at this
  | some j =>
    obtain ⟨d, hd, hs, ht⟩ := hfound hid
    rw [hsingle j i d e hd he hs ht]

theorem pairwise_numberedEdges (g : Graph) (p : Edge × EdgeId → Bool) :
    ((g.numberedEdges.filter p).map (·.2)).Pairwise (· < ·) := by
  have hall : (g.numberedEdges.map (·.2)).Pairwise (· < ·) := by
    rw [numberedEdges, List.zipIdx_map_snd]
    exact List.pairwise_lt_range'
  exact hall.sublist (List.filter_sublist.map _)

theorem mem_numberedEdges {p : Edge → Bool} {i : EdgeId} :
    i ∈ (g.numberedEdges.filter (p ·.1)).map (·.2) ↔ ∃ e, g.edges[i]? = some e ∧ p e = true := by
  simp only [numberedEdges, List.mem_map, List.mem_filter, Prod.exists, exists_eq_right,
    List.mem_zipIdx_iff_getElem?, Array.getElem?_toList]

theorem Records.represents (h : g.Records log) : g.Represents log where
  names := h.distinct
  byName _ _ := h.distinct.idOf?_eq_some_iff
  ends := h.edges.closed
  pairs := h.edges.single
  byPair _ _ _ := edgeBetween?_eq_some_iff h.edges.single
  outgoing u := ⟨pairwise_numberedEdges g _, fun _ =>
    (mem_numberedEdges (p := (·.source == u))).trans (by simp)⟩
  incoming v := ⟨pairwise_numberedEdges g _, fun _ =>
    (mem_numberedEdges (p := (·.target == v))).trans (by simp)⟩
  noted x hx := by
    obtain ⟨e, he, hs, ht, -⟩ := (h.edges.edge _ _ x.kind).1 (List.mem_map_of_mem hx)
    exact ⟨e, he, hs, ht⟩
  kinds e he := by
    refine ⟨h.edges.kinded e he, fun k => ?_⟩
    rw [h.edges.contains_iff h.distinct he, List.mem_map]
    simp only [Link.clause, Clause.edge.injEq]
  location e he _ := ⟨fun heq => heq ▸ h.placed e he, (h.placed e he).unique⟩

end Graph

/-- A graph under construction, and the dependences that were noted so far, the last first. -/
structure History where
  graph : Graph := {}
  log : List Link := []

namespace History

/-- Performs an operation. One that fails notes nothing, and leaves the graph as it left it. -/
def step (h : History) (op : Operation) : History :=
  match op.perform h.graph with
  | .ok _ g => ⟨g, op.links ++ h.log⟩
  | .error _ g => { h with graph := g }

def replay (ops : List Operation) : History := ops.foldl step {}

theorem step_cases (h : History) (op : Operation) :
    (∃ g, h.graph.Edits op.links g ∧ h.step op = ⟨g, op.links ++ h.log⟩) ∨ h.step op = h := by
  have hperform := op.perform_eq h.graph
  rw [step]
  cases happly : op.apply h.graph with
  | ok g =>
    rw [happly] at hperform
    rw [hperform]
    exact .inl ⟨g, Operation.edits_of_apply happly, rfl⟩
  | error e =>
    rw [happly] at hperform
    rw [hperform]
    exact .inr rfl

theorem records_foldl (ops : List Operation) :
    ∀ h : History, h.graph.Records h.log →
      (ops.foldl step h).graph.Records (ops.foldl step h).log := by
  induction ops with
  | nil => exact fun _ h => h
  | cons op ops ih =>
    intro h hrecords
    refine ih (h.step op) ?_
    rcases h.step_cases op with ⟨g, hedits, hstep⟩ | hstep
    · rw [hstep]
      exact hedits.records hrecords
    · rw [hstep]
      exact hrecords

theorem grows_foldl (ops : List Operation) :
    ∀ h : History, h.graph.Grows (ops.foldl step h).graph := by
  induction ops with
  | nil => exact fun h => .refl h.graph
  | cons op ops ih =>
    intro h
    refine Graph.Grows.trans ?_ (ih (h.step op))
    rcases h.step_cases op with ⟨g, hedits, hstep⟩ | hstep
    · rw [hstep]
      exact hedits.grows
    · rw [hstep]
      exact .refl h.graph

end History

namespace Graph

/-- The graph is one that operations have made, or the one of a whole program. -/
inductive Built : Graph → Prop
  | replayed (ops : List Operation) : Built (History.replay ops).graph
  | ofProgram {ir : IrFacts} {pdg : PdgFacts} {labels : Labels} {g : Graph} :
      Graph.ofProgram ir pdg labels = .ok (.ok g) → Built g

theorem Built.closed {g : Graph} (h : g.Built) : g.Closed := by
  cases h with
  | replayed ops => exact (History.records_foldl ops {} records_empty).edges.closed
  | ofProgram hok => exact (reads_ofProgram hok).edges.closed

theorem Built.distinct {g : Graph} (h : g.Built) : g.Distinct := by
  cases h with
  | replayed ops => exact (History.records_foldl ops {} records_empty).distinct
  | ofProgram hok => exact (reads_ofProgram hok).nodes.distinct

end Graph

end Enclave
