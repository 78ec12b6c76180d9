import Enclave.Proofs.Representation

/-!
# Enclave.Proofs.Store

A graph as it is stored: nodes and edges with their numbers, and beside them four indexes that lead
to them, by the name of a node, by the two ends of an edge, and from each node to the edges that
leave and enter it. Each change to a store has to be made to every index that it concerns.

`InStep` says that numbers are positions and that every index lists what it should and nothing else.

* `InStep.pushNode`, `InStep.modifyNode`, `InStep.pushEdge`, `InStep.absorb`: the single changes
  keep a store in step.
* `InStep.ext_view`: a store in step is determined by the graph that it stores, its view.
-/

namespace Enclave

open Std

attribute [local instance] lexOrd

/-- A node or an edge with its number. -/
structure Numbered (α : Type) where
  id : Nat
  value : α
deriving DecidableEq

structure Store where
  nodes : Array (Numbered Node) := #[]
  edges : Array (Numbered Edge) := #[]
  byName : SortedMap String NodeId := ∅
  /-- The edges that leave each node. -/
  outgoing : Array (List EdgeId) := #[]
  /-- The edges that enter each node. -/
  incoming : Array (List EdgeId) := #[]
  /-- The edge from one node to another. -/
  byPair : SortedMap (NodeId × NodeId) EdgeId := ∅

namespace Numbered

variable {α : Type}

def map (f : α → α) (x : Numbered α) : Numbered α := { x with value := f x.value }

/-- Numbers are positions. -/
def InOrder (xs : Array (Numbered α)) : Prop :=
  ∀ (i : Nat) (x : Numbered α), xs[i]? = some x → x.id = i

variable {xs ys : Array (Numbered α)}

theorem InOrder.empty : InOrder (#[] : Array (Numbered α)) := by
  intro i x hx
  cases hx

theorem InOrder.push (h : InOrder xs) (a : α) : InOrder (xs.push ⟨xs.size, a⟩) := by
  intro i x hx
  rw [Array.getElem?_push] at hx
  split at hx
  · cases hx
    exact Eq.symm ‹_›
  · exact h i x hx

theorem InOrder.modify (h : InOrder xs) (i : Nat) (f : α → α) : InOrder (xs.modify i (map f)) := by
  intro j x hx
  rw [Array.getElem?_modify] at hx
  split at hx
  · obtain ⟨y, hy, rfl⟩ := Option.map_eq_some_iff.1 hx
    exact h j y hy
  · exact h j x hx

/-- What is numbered in order is known by its values. -/
theorem InOrder.ext (hx : InOrder xs) (hy : InOrder ys)
    (h : xs.map (·.value) = ys.map (·.value)) : xs = ys := by
  refine Array.ext_getElem? fun i => ?_
  have hi : (xs[i]?).map (·.value) = (ys[i]?).map (·.value) := by
    rw [← Array.getElem?_map, ← Array.getElem?_map, h]
  cases hxi : xs[i]? with
  | none =>
    rw [hxi, Option.map_none] at hi
    exact (Option.map_eq_none_iff.1 hi.symm).symm
  | some x =>
    rw [hxi, Option.map_some] at hi
    obtain ⟨y, hyi, hvalue⟩ := Option.map_eq_some_iff.1 hi.symm
    have hid : x.id = y.id := (hx i x hxi).trans (hy i y hyi).symm
    rw [hyi]
    cases x
    cases y
    cases hid
    cases hvalue
    rfl

theorem map_modify (xs : Array (Numbered α)) (i : Nat) (f : α → α) :
    (xs.modify i (map f)).map (·.value) = (xs.map (·.value)).modify i f := by
  refine Array.ext_getElem? fun j => ?_
  rw [Array.getElem?_map, Array.getElem?_modify, Array.getElem?_modify, Array.getElem?_map]
  split
  · rw [Option.map_map, Option.map_map]
    rfl
  · rfl

section Keys

variable {κ : Type} [BEq κ] [Ord κ] {m : SortedMap κ Nat} {key : α → κ}

/-- The map leads from each key to the one that has it. -/
def Keyed (m : SortedMap κ Nat) (xs : Array (Numbered α)) (key : α → κ) : Prop :=
  ∀ k i, m.get? k = some i ↔ ∃ x, xs[i]? = some x ∧ key x.value = k

theorem Keyed.empty : Keyed ∅ (#[] : Array (Numbered α)) key := by
  intro k i
  constructor
  · intro h
    cases h
  · rintro ⟨x, hx, -⟩
    cases hx

theorem Keyed.unique (h : Keyed m xs key) {i j : Nat} {x y : Numbered α} (hx : xs[i]? = some x)
    (hy : xs[j]? = some y) (hkey : key x.value = key y.value) : i = j := by
  have hi := (h (key y.value) i).2 ⟨x, hx, hkey⟩
  have hj := (h (key y.value) j).2 ⟨y, hy, rfl⟩
  exact Option.some.inj (hi.symm.trans hj)

theorem Keyed.modify (h : Keyed m xs key) (i : Nat) {f : α → α}
    (hkey : ∀ a, key (f a) = key a) : Keyed m (xs.modify i (map f)) key := by
  intro k j
  rw [h, Array.getElem?_modify]
  split
  · cases xs[j]? <;> simp [map, hkey]
  · rfl

theorem Keyed.push [LawfulBEq κ] [TransOrd κ] [LawfulEqOrd κ] (h : Keyed m xs key) {a : α}
    (hnew : m.get? (key a) = none) :
    Keyed (m.insert (key a) xs.size) (xs.push ⟨xs.size, a⟩) key := by
  intro k i
  have hold : (∃ x, xs[i]? = some x ∧ key x.value = k) → i ≠ xs.size ∧ k ≠ key a := by
    rintro ⟨x, hx, rfl⟩
    refine ⟨Nat.ne_of_lt (Array.getElem?_eq_some_iff.1 hx).1, fun hkey => ?_⟩
    rw [← hkey, (h _ i).2 ⟨x, hx, rfl⟩] at hnew
    cases hnew
  rw [SortedMap.get?_insert, Array.getElem?_push]
  by_cases hk : k = key a
  · subst hk
    rw [if_pos (beq_self_eq_true _), Option.some_inj]
    split
    · rename_i hi
      simp [hi]
    · rename_i hi
      exact iff_of_false (Ne.symm hi) fun hx => (hold hx).2 rfl
  · rw [if_neg (by simpa using hk), h k i]
    split
    · rename_i hi
      refine iff_of_false (fun hx => (hold hx).1 hi) ?_
      rintro ⟨x, hx, hkey⟩
      cases hx
      exact hk hkey.symm
    · rfl

end Keys

end Numbered

namespace Store

def view (s : Store) : Graph := ⟨s.nodes.map (·.value), s.edges.map (·.value)⟩

def pushNode (s : Store) (name : String) (kind : NodeKind) : Store :=
  { s with
    nodes := s.nodes.push ⟨s.nodes.size, { name, kind }⟩
    outgoing := s.outgoing.push []
    incoming := s.incoming.push []
    byName := s.byName.insert name s.nodes.size }

def modifyNode (s : Store) (v : NodeId) (f : Node → Node) : Store :=
  { s with nodes := s.nodes.modify v (.map f) }

def pushEdge (s : Store) (u v : NodeId) (kind : DependenceKind) (location : Option Location) :
    Store :=
  { s with
    edges := s.edges.push ⟨s.edges.size, ⟨u, v, .single kind, location⟩⟩
    outgoing := s.outgoing.modify u (· ++ [s.edges.size])
    incoming := s.incoming.modify v (· ++ [s.edges.size])
    byPair := s.byPair.insert (u, v) s.edges.size }

def absorb (s : Store) (i : EdgeId) (kind : DependenceKind) (location : Option Location) : Store :=
  { s with edges := s.edges.modify i (.map (·.absorb kind location)) }

def addEdge (s : Store) (u v : NodeId) (kind : DependenceKind) (location : Option Location) :
    EdgeId × Store :=
  match s.byPair.get? (u, v) with
  | some i => (i, s.absorb i kind location)
  | none => (s.edges.size, s.pushEdge u v kind location)

def medium : Medium Store where
  idOf? s name := s.byName.get? name
  kindOf? s v := s.nodes[v]?.map (·.value.kind)
  add name kind := do
    let s ← get
    if s.byName.contains name then
      throw (.duplicate name)
    set (s.pushNode name kind)
    return s.nodes.size
  touch v f := modify (·.modifyNode v f)
  link u v kind location := modifyGet (·.addEdge u v kind location)

/-- The edge of this number has the node at one of its ends. -/
def EndsAt (s : Store) (endOf : Edge → NodeId) (i : EdgeId) (u : NodeId) : Prop :=
  ∃ e, s.edges[i]? = some e ∧ endOf e.value = u

/-- The index lists for each node the edges that have it at one end, in ascending order. -/
structure Indexes (s : Store) (endOf : Edge → NodeId) (index : Array (List EdgeId)) : Prop where
  size : index.size = s.nodes.size
  ascending : ∀ (u : NodeId) es, index[u]? = some es → es.Pairwise (· < ·)
  mem : ∀ (u : NodeId) es, index[u]? = some es → ∀ i, i ∈ es ↔ s.EndsAt endOf i u

/-- Numbers are positions, and every index is exact. -/
structure InStep (s : Store) : Prop where
  nodes : Numbered.InOrder s.nodes
  edges : Numbered.InOrder s.edges
  byName : Numbered.Keyed s.byName s.nodes (·.name)
  byPair : Numbered.Keyed s.byPair s.edges fun e => (e.source, e.target)
  ends : ∀ (i : EdgeId) e, s.edges[i]? = some e →
    e.value.source < s.nodes.size ∧ e.value.target < s.nodes.size
  outgoing : s.Indexes (·.source) s.outgoing
  incoming : s.Indexes (·.target) s.incoming

variable {s : Store} {u v : NodeId} {i : EdgeId} {name : String} {kind : NodeKind}

section Views

theorem getElem?_nodes {n : Node} : s.view.nodes[v]? = some n ↔
    ∃ x, s.nodes[v]? = some x ∧ x.value = n := by
  rw [view, Array.getElem?_map, Option.map_eq_some_iff]

theorem getElem?_edges {e : Edge} : s.view.edges[i]? = some e ↔
    ∃ x, s.edges[i]? = some x ∧ x.value = e := by
  rw [view, Array.getElem?_map, Option.map_eq_some_iff]

theorem size_nodes (s : Store) : s.view.nodes.size = s.nodes.size := Array.size_map

theorem view_pushNode (s : Store) (name : String) (kind : NodeKind) :
    (s.pushNode name kind).view = (s.view.addNode name kind).1 := by
  rw [view, pushNode, Array.map_push]
  rfl

theorem view_modifyNode (s : Store) (v : NodeId) (f : Node → Node) :
    (s.modifyNode v f).view = s.view.modifyNode v f := by
  rw [view, modifyNode, Numbered.map_modify]
  rfl

theorem view_pushEdge (s : Store) (u v : NodeId) (kind : DependenceKind)
    (location : Option Location) : (s.pushEdge u v kind location).view =
      { s.view with edges := s.view.edges.push ⟨u, v, .single kind, location⟩ } := by
  rw [view, pushEdge, Array.map_push]
  rfl

theorem view_absorb (s : Store) (i : EdgeId) (kind : DependenceKind) (location : Option Location) :
    (s.absorb i kind location).view =
      { s.view with edges := s.view.edges.modify i (·.absorb kind location) } := by
  rw [view, absorb, Numbered.map_modify]
  rfl

end Views

section Keeping

variable {endOf : Edge → NodeId} {index : Array (List EdgeId)} {kind' : DependenceKind}
  {location : Option Location}

theorem endsAt_pushEdge {w : NodeId} : (s.pushEdge u v kind' location).EndsAt endOf i w ↔
    s.EndsAt endOf i w ∨ i = s.edges.size ∧ endOf ⟨u, v, .single kind', location⟩ = w := by
  simp only [EndsAt, pushEdge, Array.getElem?_push]
  split
  · rename_i hi
    simp [hi]
  · rename_i hi
    simp [hi]

theorem endsAt_absorb {j : EdgeId} {w : NodeId}
    (hend : ∀ e : Edge, endOf (e.absorb kind' location) = endOf e) :
    (s.absorb j kind' location).EndsAt endOf i w ↔ s.EndsAt endOf i w := by
  simp only [EndsAt, absorb, Array.getElem?_modify]
  split
  · cases s.edges[i]? <;> simp [Numbered.map, hend]
  · rfl

theorem EndsAt.lt (h : s.EndsAt endOf i u) : i < s.edges.size := by
  obtain ⟨e, he, -⟩ := h
  exact (Array.getElem?_eq_some_iff.1 he).1

namespace Indexes

theorem pushNode (h : s.Indexes endOf index)
    (hends : ∀ (i : EdgeId) e, s.edges[i]? = some e → endOf e.value < s.nodes.size) :
    (s.pushNode name kind).Indexes endOf (index.push []) where
  size := by rw [Array.size_push, h.size, Store.pushNode, Array.size_push]
  ascending w es hes := by
    rw [Array.getElem?_push] at hes
    split at hes
    · cases hes
      exact .nil
    · exact h.ascending w es hes
  mem w es hes i := by
    rw [Array.getElem?_push] at hes
    split at hes
    · -- no edge has the new node at an end
      rename_i hw
      cases hes
      refine iff_of_false List.not_mem_nil ?_
      rintro ⟨e, he, hend⟩
      have hlt := hends i e he
      rw [hend, hw, h.size] at hlt
      exact Nat.lt_irrefl _ hlt
    · exact h.mem w es hes i

theorem pushEdge {w : NodeId} (h : s.Indexes endOf index)
    (hw : endOf ⟨u, v, .single kind', location⟩ = w) :
    (s.pushEdge u v kind' location).Indexes endOf (index.modify w (· ++ [s.edges.size])) where
  size := by rw [Array.size_modify, h.size, Store.pushEdge]
  ascending x es hes := by
    rw [Array.getElem?_modify] at hes
    split at hes
    · obtain ⟨old, hold, rfl⟩ := Option.map_eq_some_iff.1 hes
      refine List.pairwise_append.2 ⟨h.ascending x old hold, List.pairwise_singleton _ _, ?_⟩
      intro j hj k hk
      cases List.mem_singleton.1 hk
      exact ((h.mem x old hold j).1 hj).lt
    · exact h.ascending x es hes
  mem x es hes j := by
    rw [Array.getElem?_modify] at hes
    rw [endsAt_pushEdge, hw]
    split at hes
    · rename_i hwx
      obtain ⟨old, hold, rfl⟩ := Option.map_eq_some_iff.1 hes
      rw [List.mem_append, List.mem_singleton, h.mem x old hold]
      simp [hwx]
    · rename_i hwx
      rw [h.mem x es hes]
      simp [hwx]

theorem absorb {j : EdgeId} (h : s.Indexes endOf index)
    (hend : ∀ e : Edge, endOf (e.absorb kind' location) = endOf e) :
    (s.absorb j kind' location).Indexes endOf index :=
  ⟨h.size, h.ascending, fun w es hes i => (h.mem w es hes i).trans (endsAt_absorb hend).symm⟩

end Indexes

namespace InStep

theorem pushNode (h : s.InStep) (hnew : s.byName.get? name = none) :
    (s.pushNode name kind).InStep where
  nodes := h.nodes.push _
  edges := h.edges
  byName := h.byName.push (a := { name, kind }) hnew
  byPair := h.byPair
  ends i e he := by
    obtain ⟨hs, ht⟩ := h.ends i e he
    rw [Store.pushNode, Array.size_push]
    exact ⟨Nat.lt_succ_of_lt hs, Nat.lt_succ_of_lt ht⟩
  outgoing := h.outgoing.pushNode fun i e he => (h.ends i e he).1
  incoming := h.incoming.pushNode fun i e he => (h.ends i e he).2

theorem modifyNode {f : Node → Node} (h : s.InStep) (hname : ∀ n, (f n).name = n.name) :
    (s.modifyNode v f).InStep where
  nodes := h.nodes.modify v f
  edges := h.edges
  byName := h.byName.modify v hname
  byPair := h.byPair
  ends i e he := by
    rw [Store.modifyNode, Array.size_modify]
    exact h.ends i e he
  outgoing := ⟨by rw [Store.modifyNode, Array.size_modify, h.outgoing.size], h.outgoing.ascending,
    h.outgoing.mem⟩
  incoming := ⟨by rw [Store.modifyNode, Array.size_modify, h.incoming.size], h.incoming.ascending,
    h.incoming.mem⟩

theorem pushEdge (h : s.InStep) (hu : u < s.nodes.size) (hv : v < s.nodes.size)
    (hnew : s.byPair.get? (u, v) = none) : (s.pushEdge u v kind' location).InStep where
  nodes := h.nodes
  edges := h.edges.push _
  byName := h.byName
  byPair := h.byPair.push (a := ⟨u, v, .single kind', location⟩) hnew
  ends i e he := by
    rw [Store.pushEdge, Array.getElem?_push] at he
    split at he
    · cases he
      exact ⟨hu, hv⟩
    · exact h.ends i e he
  outgoing := h.outgoing.pushEdge rfl
  incoming := h.incoming.pushEdge rfl

theorem absorb (h : s.InStep) (i : EdgeId) (kind : DependenceKind) (location : Option Location) :
    (s.absorb i kind location).InStep where
  nodes := h.nodes
  edges := h.edges.modify i _
  byName := h.byName
  byPair := h.byPair.modify i fun _ => rfl
  ends j e he := by
    rw [Store.absorb, Array.getElem?_modify] at he
    split at he
    · obtain ⟨d, hd, rfl⟩ := Option.map_eq_some_iff.1 he
      exact h.ends j d hd
    · exact h.ends j e he
  outgoing := h.outgoing.absorb fun _ => rfl
  incoming := h.incoming.absorb fun _ => rfl

end InStep

end Keeping

section Reading

theorem indexes_empty (endOf : Edge → NodeId) : Indexes {} endOf #[] :=
  ⟨rfl, nofun, nofun⟩

theorem inStep_empty : InStep {} where
  nodes := .empty
  edges := .empty
  byName := .empty
  byPair := .empty
  ends i e he := by cases he
  outgoing := indexes_empty _
  incoming := indexes_empty _

theorem Indexes.eq_of_getElem? {endOf : Edge → NodeId} {index : Array (List EdgeId)}
    (h : s.Indexes endOf index) {es : List EdgeId} (hes : index[u]? = some es) :
    es = (s.view.numberedEdges.filter (endOf ·.1 == u)).map (·.2) := by
  refine eq_of_pairwise_of_mem (fun _ _ => Nat.lt_asymm) (h.ascending u es hes)
    (Graph.pairwise_numberedEdges _ _) fun i => ?_
  rw [h.mem u es hes, Graph.mem_numberedEdges (p := (endOf · == u)), EndsAt]
  simp only [getElem?_edges, beq_iff_eq]
  constructor
  · rintro ⟨x, hx, hu⟩
    exact ⟨x.value, ⟨x, hx, rfl⟩, hu⟩
  · rintro ⟨_, ⟨x, hx, rfl⟩, hu⟩
    exact ⟨x, hx, hu⟩

theorem Indexes.getD_eq {endOf : Edge → NodeId} {index : Array (List EdgeId)}
    (h : s.Indexes endOf index)
    (hends : ∀ (i : EdgeId) e, s.edges[i]? = some e → endOf e.value < s.nodes.size) (u : NodeId) :
    index[u]?.getD [] = (s.view.numberedEdges.filter (endOf ·.1 == u)).map (·.2) := by
  cases hu : index[u]? with
  | some es => exact h.eq_of_getElem? hu
  | none =>
    rw [Array.getElem?_eq_none_iff, h.size] at hu
    refine (List.eq_nil_iff_forall_not_mem.2 fun i hi => ?_).symm
    obtain ⟨e, he, hend⟩ := (Graph.mem_numberedEdges (p := (endOf · == u))).1 hi
    obtain ⟨x, hx, rfl⟩ := getElem?_edges.1 he
    have hlt := hends i x hx
    rw [beq_iff_eq.1 hend] at hlt
    exact Nat.not_lt.2 hu hlt

theorem filterMap_edges (h : Numbered.InOrder s.edges) (p : Edge × EdgeId → Bool) :
    ((s.view.numberedEdges.filter p).map (·.2)).filterMap (s.edges[·]?) =
      (s.view.numberedEdges.filter p).map fun e => ⟨e.2, e.1⟩ := by
  rw [List.filterMap_map, ← List.filterMap_eq_map]
  refine List.filterMap_congr fun e he => ?_
  have hget := List.mem_zipIdx_iff_getElem?.1 (List.mem_filter.1 he).1
  rw [Array.getElem?_toList] at hget
  obtain ⟨x, hx, hvalue⟩ := getElem?_edges.1 hget
  have hid := h e.2 x hx
  rw [Function.comp_apply, hx]
  cases x
  cases hid
  cases hvalue
  rfl

theorem Indexes.ext {t : Store} {endOf : Edge → NodeId} {index index' : Array (List EdgeId)}
    (h : s.Indexes endOf index) (h' : t.Indexes endOf index') (hview : s.view = t.view) :
    index = index' := by
  have hsize : index.size = index'.size := by
    rw [h.size, h'.size, ← size_nodes, ← size_nodes, hview]
  refine Array.ext_getElem? fun u => ?_
  cases hu : index[u]? with
  | none =>
    rw [Array.getElem?_eq_none_iff, hsize] at hu
    exact (Array.getElem?_eq_none hu).symm
  | some es =>
    have hlt : u < index'.size := hsize ▸ (Array.getElem?_eq_some_iff.1 hu).1
    have hu' := Array.getElem?_eq_getElem hlt
    rw [hu', h.eq_of_getElem? hu, h'.eq_of_getElem? hu', hview]

namespace InStep

variable {t : Store}

theorem distinct (h : s.InStep) : s.view.Distinct := by
  intro u v m n hm hn hname
  obtain ⟨x, hx, rfl⟩ := getElem?_nodes.1 hm
  obtain ⟨y, hy, rfl⟩ := getElem?_nodes.1 hn
  exact h.byName.unique hx hy hname

theorem single (h : s.InStep) (i j : EdgeId) (d e : Edge) (hd : s.view.edges[i]? = some d)
    (he : s.view.edges[j]? = some e) (hs : d.source = e.source) (ht : d.target = e.target) :
    i = j := by
  obtain ⟨x, hx, rfl⟩ := getElem?_edges.1 hd
  obtain ⟨y, hy, rfl⟩ := getElem?_edges.1 he
  exact h.byPair.unique hx hy (Prod.ext hs ht)

theorem get?_byName (h : s.InStep) (name : String) : s.byName.get? name = s.view.idOf? name := by
  ext v
  rw [h.byName, h.distinct.idOf?_eq_some_iff]
  simp only [getElem?_nodes]
  constructor
  · rintro ⟨x, hx, hname⟩
    exact ⟨x.value, ⟨x, hx, rfl⟩, hname⟩
  · rintro ⟨_, ⟨x, hx, rfl⟩, hname⟩
    exact ⟨x, hx, hname⟩

theorem get?_byPair (h : s.InStep) (u v : NodeId) :
    s.byPair.get? (u, v) = s.view.edgeBetween? u v := by
  ext i
  rw [h.byPair, Graph.edgeBetween?_eq_some_iff h.single]
  simp only [getElem?_edges, Prod.mk.injEq]
  constructor
  · rintro ⟨x, hx, hends⟩
    exact ⟨x.value, ⟨x, hx, rfl⟩, hends⟩
  · rintro ⟨_, ⟨x, hx, rfl⟩, hends⟩
    exact ⟨x, hx, hends⟩

/-- Stores in step that store the same graph are the same. -/
theorem ext_view (h : s.InStep) (h' : t.InStep) (hview : s.view = t.view) : s = t := by
  have hnodes := h.nodes.ext h'.nodes (congrArg Graph.nodes hview)
  have hedges := h.edges.ext h'.edges (congrArg Graph.edges hview)
  have hname : s.byName = t.byName := SortedMap.ext_get? fun name => by
    rw [h.get?_byName, h'.get?_byName, hview]
  have hpair : s.byPair = t.byPair := SortedMap.ext_get? fun p => by
    rw [h.get?_byPair p.1 p.2, h'.get?_byPair p.1 p.2, hview]
  have hout := h.outgoing.ext h'.outgoing hview
  have hin := h.incoming.ext h'.incoming hview
  cases s
  cases t
  simp_all

end InStep

end Reading

end Store

end Enclave
