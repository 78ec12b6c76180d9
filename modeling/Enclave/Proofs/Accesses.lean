import Enclave.Proofs.Marking
import Enclave.Proofs.OrderMatrix
import Enclave.Proofs.Stages

/-!
# Enclave.Proofs.Accesses

The tables that an analysis looks into by position, and what it looks for there. Levels are
positions in the names of a lattice and in its square tables; nodes and edges are positions in the
arrays of an arena and in its indexes, and nodes in the marks of a search for components as well. An
`Access` is a position together with the size that the table has at that moment.

What a step accesses is listed for the state in which the step starts, and the states are those that
the analysis goes through: lattices and labels are those of the program, arenas are all that can
come up while a graph is built, and levels spread from one `Stage` to the next. Where a loop may
leave off early all of its accesses are listed.

* `Analysis.Accesses`: what the analysis of a program accesses.
* `Analysis.inBounds_of_accesses`: all of it is there.
-/

namespace Enclave

attribute [local instance] lexOrd

inductive Table where
  | names
  | order
  | exclusions
  | joins
  | nodes
  | edges
  | outgoing
  | incoming
  | marks
deriving DecidableEq, Repr

inductive Access where
  | entry (table : Table) (position size : Nat)
  /-- An access to a square table, which is kept row after row. -/
  | cell (table : Table) (row column width : Nat)
deriving DecidableEq, Repr

namespace Access

def InBounds : Access → Prop
  | entry _ position size => position < size
  | cell _ row column width =>
    row < width ∧ column < width ∧ row * width + column < width * width

instance (x : Access) : Decidable x.InBounds :=
  match x with
  | entry _ position size => inferInstanceAs (Decidable (position < size))
  | cell _ row column width => inferInstanceAs
      (Decidable (row < width ∧ column < width ∧ row * width + column < width * width))

theorem inBounds_cell {table : Table} {row column width : Nat} (hrow : row < width)
    (hcolumn : column < width) : (cell table row column width).InBounds :=
  ⟨hrow, hcolumn, (OrderMatrix.cell ⟨row, hrow⟩ ⟨column, hcolumn⟩).isLt⟩

end Access

/-! ## What is accessed -/

namespace Lattice

def nameAt (l : Lattice) (a : Level) : Access := .entry .names a l.names.length

def cellAt (l : Lattice) (table : Table) (a b : Level) : Access := .cell table a b l.size

def known (l : Lattice) (pairs : List (String × String)) : List (Level × Level) :=
  pairs.filterMap fun p => (l.lookupPair p).toOption

/--
The order is closed, cycles are looked for, and joins are computed from it, each for all levels; the
declared pairs are marked in the tables of the order and of the exclusions.
-/
def accesses (names : List String) (spec : LatticeSpec) : List Access :=
  let l : Lattice := ⟨(SortedSet.ofList (names ++ spec.levels)).toList, #[], [], none⟩
  l.levels.map l.nameAt ++
    ([Table.order, .exclusions, .joins].flatMap fun table =>
      l.levels.flatMap fun a => l.levels.map (l.cellAt table a)) ++
    (l.known spec.order).map (fun p => l.cellAt .order p.1 p.2) ++
    (l.known spec.exclusive).flatMap fun p =>
      [l.cellAt .exclusions p.1 p.2, l.cellAt .exclusions p.2 p.1]

end Lattice

/-- A level outside its code taint is named. -/
def LabelDecls.accesses (l : Lattice) (decls : LabelDecls) : List Access :=
  (decls.functions.values ++ decls.globals.values).filterMap fun e =>
    (e.label l).level.map l.nameAt

namespace Arena

variable (r : Arena)

def nodeAt (v : NodeId) : Access := .entry .nodes v r.nodes.size

def edgeAt (e : EdgeId) : Access := .entry .edges e r.edges.size

def outgoingAt (v : NodeId) : Access := .entry .outgoing v r.outgoing.size

def incomingAt (v : NodeId) : Access := .entry .incoming v r.incoming.size

/-- The search for components has a mark for each node. -/
def markAt (v : NodeId) : Access := .entry .marks v r.nodes.size

/-- A node that is found by its name is looked at or changed. -/
def finding (name : String) : List Access := (r.byName.get? name).toList.map r.nodeAt

/-- A dependence is added to the edge between two nodes, or a new edge to the indexes of both. -/
def linking (u v : NodeId) : List Access :=
  match r.byPair.get? (u, v) with
  | some e => [r.edgeAt e]
  | none => [r.outgoingAt u, r.incomingAt v]

def leaving (v : NodeId) : List Access :=
  r.outgoingAt v :: (r.outgoing[v]?.getD []).map r.edgeAt

def entering (v : NodeId) : List Access :=
  r.incomingAt v :: (r.incoming[v]?.getD []).map r.edgeAt

/-- Every node is looked at in turn, and those of a component are left in both directions. -/
def gathering : List Access :=
  (List.range r.nodes.size).map r.markAt ++ r.view.components.flatten.flatMap fun v =>
    r.leaving v ++ r.entering v ++ (r.bothWays v).map r.markAt

end Arena

namespace Spread

/--
A level comes to a node. It is compared with the levels there and joined with the level of the node,
and the names of seeds decide between origins that are equally near.
-/
def landing (r : Arena) (l : Lattice) (f : NodeFacts) (v : NodeId) (a : Level) (o : Origin) :
    List Access :=
  [r.nodeAt v, r.nodeAt o.seed, l.nameAt a] ++
    (f.levels.toList.flatMap fun p => [l.cellAt .joins a p.1, r.nodeAt p.2.seed]) ++
    f.state.level?.toList.flatMap fun t => [l.cellAt .joins t a, l.nameAt t]

/-- A level comes to a node, and so do the joins that it raises there. -/
def arriving (r : Arena) (l : Lattice) (v : NodeId) :
    Nat → NodeFacts → Level → Origin → List Access
  | 0, _, _, _ => []
  | fuel + 1, f, a, o =>
    landing r l f v a o ++
      match f.levels.get? a, f.raised? l a o with
      | none, some b => arriving r l v fuel (f.add l a o) b (.start v)
      | _, _ => []

/-- What the next delivery or task of a run accesses. -/
def Stage.accesses (r : Arena) (l : Lattice) (st : Stage) : List Access :=
  let arrivesAt (v : NodeId) := arriving r l v (l.size + 1) (st.flow.factsOf v)
  match st.sending, st.tasks with
  | d :: _, _ =>
    r.nodeAt d.edge.1.target ::
      -- a level that is admitted is named for the record
      if admits r.view d.edge.1 d.level then [l.nameAt d.level]
      else arrivesAt d.edge.1.target d.level d.origin
  | [], .plant v :: _ =>
    r.nodeAt v :: (r.view.nodes[v]?.bind (·.seed?)).toList.flatMap (arrivesAt v · (.start v))
  | [], .sendReturn v :: _ => r.nodeAt v :: r.leaving v
  | [], .forward p :: _ =>
    match (st.flow.factsOf p.1).levels.get? p.2 with
    | some _ => r.nodeAt p.1 :: r.leaving p.1
    | none => []
  | [], .round :: _ | [], [] => []

end Spread

/-- Every node is listed with its level, and those that have the default level once more. -/
def Assignment.accesses (A : Assignment) (r : Arena) (l : Lattice) : List Access :=
  ((List.range r.nodes.size).flatMap fun v =>
    r.nodeAt v :: (A.level? v).toList.map l.nameAt) ++
    A.defaulted.flatMap fun v => r.nodeAt v :: l.default.toList.map l.nameAt

/-- A seed and a level are named, and the level is traced back from where it met the other. -/
def Side.accesses (r : Arena) (l : Lattice) (s : Solution) (meeting : NodeId) (side : Side) :
    List Access :=
  [r.nodeAt side.seed, l.nameAt side.level] ++
    ((r.view.reachableFrom side.seed fun e => s.carried.contains (e.2, side.level)).toList.flatMap
      r.leaving) ++
    (Explanation.tracePath r.view s side meeting).map r.nodeAt

def Witness.accesses (r : Arena) (l : Lattice) (s : Solution) (w : Witness) : List Access :=
  r.nodeAt w.meeting :: [w.incoming, w.existing].flatMap (Side.accesses r l s w.meeting)

namespace Analysis

inductive Accesses (settings : AnalysisSettings) (program : Program) : Access → Prop
  | lattice {x : Access} : x ∈ Lattice.accesses
      (program.labels.levels.getD program.labels.referencedLevels.toList) settings.lattice →
      Accesses settings program x
  | labels {l : Lattice} {x : Access} : latticeFor settings program.labels = .ok l →
      x ∈ program.labels.accesses l → Accesses settings program x
  | finding {r : Arena} {name : String} {x : Access} : x ∈ r.finding name →
      Accesses settings program x
  | linking {r : Arena} {source target : String} {u v : NodeId} {x : Access} :
      r.byName.get? source = some u → r.byName.get? target = some v → x ∈ r.linking u v →
      Accesses settings program x
  | components {p : Prepared} {r : Arena} {x : Access} : prepare settings program = .ok (.ok p) →
      r.view = p.graph → x ∈ r.gathering → Accesses settings program x
  | spread {p : Prepared} {r : Arena} {members : List NodeId} {budget : Budget}
      {st : Spread.Stage} {x : Access} : prepare settings program = .ok (.ok p) →
      r.view = p.graph → members ∈ p.graph.components →
      Spread.Stage.Reaches p.graph p.lattice (.start members budget) st →
      x ∈ st.accesses r p.lattice → Accesses settings program x
  | partition {p : Prepared} {r : Arena} {s : Solution} {A : Assignment} {x : Access} :
      prepare settings program = .ok (.ok p) → r.view = p.graph →
      p.graph.solve p.lattice settings.solver = .ok s →
      Assignment.ofSolution p.graph p.lattice s = .ok A → x ∈ A.accesses r p.lattice →
      Accesses settings program x
  | conflict {p : Prepared} {r : Arena} {s : Solution} {w : Witness} {x : Access} :
      prepare settings program = .ok (.ok p) → r.view = p.graph →
      p.graph.solve p.lattice settings.solver = .ok s → w ∈ s.witnesses →
      x ∈ w.accesses r p.lattice s → Accesses settings program x

end Analysis

/-! ## All of it is there -/

theorem Lattice.inBounds_accesses (names : List String) (spec : LatticeSpec) :
    ∀ x ∈ accesses names spec, x.InBounds := by
  have hknown : ∀ {l : Lattice} {pairs p}, p ∈ l.known pairs → p.1 < l.size ∧ p.2 < l.size := by
    intro l pairs p hp
    obtain ⟨q, -, hq⟩ := List.mem_filterMap.1 hp
    cases hlookup : l.lookupPair q with
    | error e =>
      rw [hlookup] at hq
      cases hq
    | ok p' =>
      rw [hlookup] at hq
      cases hq
      exact lookupPair_lt hlookup
  simp only [accesses, List.forall_mem_append, List.forall_mem_map, List.forall_mem_flatMap,
    List.forall_mem_cons, List.not_mem_nil, false_imp_iff, implies_true, and_true]
  have hlevels : ∀ {l : Lattice} {a}, a ∈ l.levels → a < l.size := List.mem_range.1
  refine ⟨⟨⟨fun a ha => hlevels ha, ?_⟩, fun p hp => ?_⟩, fun p hp => ⟨?_, ?_⟩⟩
  · refine ⟨?_, ?_, ?_⟩ <;>
      exact fun a ha b hb => Access.inBounds_cell (hlevels ha) (hlevels hb)
  · exact Access.inBounds_cell (hknown hp).1 (hknown hp).2
  · exact Access.inBounds_cell (hknown hp).1 (hknown hp).2
  · exact Access.inBounds_cell (hknown hp).2 (hknown hp).1

theorem LabelDecls.inBounds_accesses (l : Lattice) (decls : LabelDecls) :
    ∀ x ∈ decls.accesses l, x.InBounds := by
  intro x hx
  obtain ⟨e, -, hx⟩ := List.mem_filterMap.1 hx
  obtain ⟨a, ha, rfl⟩ := Option.map_eq_some_iff.1 hx
  obtain ⟨name, -, hname⟩ := Option.bind_eq_some_iff.1 ha
  exact Lattice.lookup?_lt hname

namespace Arena

variable {r : Arena} {u v : NodeId}

theorem inBounds_nodeAt (hv : v < r.view.nodes.size) : (r.nodeAt v).InBounds :=
  Nat.lt_of_lt_of_eq hv r.size_nodes

theorem inBounds_outgoingAt (hv : v < r.view.nodes.size) : (r.outgoingAt v).InBounds :=
  Nat.lt_of_lt_of_eq hv (r.size_nodes.trans r.inStep.outgoing.size.symm)

theorem inBounds_incomingAt (hv : v < r.view.nodes.size) : (r.incomingAt v).InBounds :=
  Nat.lt_of_lt_of_eq hv (r.size_nodes.trans r.inStep.incoming.size.symm)

theorem lt_of_byName {name : String} (h : r.byName.get? name = some v) :
    v < r.view.nodes.size := by
  obtain ⟨x, hx, -⟩ := (r.inStep.byName name v).1 h
  rw [r.size_nodes]
  exact (Array.getElem?_eq_some_iff.1 hx).1

theorem inBounds_finding {name : String} : ∀ x ∈ r.finding name, x.InBounds := by
  intro x hx
  obtain ⟨v, hv, rfl⟩ := List.mem_map.1 hx
  exact inBounds_nodeAt (lt_of_byName (Option.mem_toList.1 hv))

theorem inBounds_linking (hu : u < r.view.nodes.size) (hv : v < r.view.nodes.size) :
    ∀ x ∈ r.linking u v, x.InBounds := by
  rw [linking]
  cases hpair : r.byPair.get? (u, v) with
  | some e =>
    obtain ⟨x, hx, -⟩ := (r.inStep.byPair (u, v) e).1 hpair
    exact List.forall_mem_singleton.2 (Array.getElem?_eq_some_iff.1 hx).1
  | none =>
    exact List.forall_mem_cons.2 ⟨inBounds_outgoingAt hu,
      List.forall_mem_singleton.2 (inBounds_incomingAt hv)⟩

theorem inBounds_index {endOf : Edge → NodeId} {index : Array (List EdgeId)}
    (h : r.toStore.Indexes endOf index) :
    ∀ x ∈ (index[v]?.getD []).map r.edgeAt, x.InBounds := by
  intro x hx
  obtain ⟨e, he, rfl⟩ := List.mem_map.1 hx
  cases hes : index[v]? with
  | none =>
    rw [hes] at he
    cases he
  | some es =>
    rw [hes] at he
    exact ((h.mem v es hes e).1 he).lt

theorem inBounds_leaving (hv : v < r.view.nodes.size) : ∀ x ∈ r.leaving v, x.InBounds :=
  List.forall_mem_cons.2 ⟨inBounds_outgoingAt hv, inBounds_index r.inStep.outgoing⟩

theorem inBounds_entering (hv : v < r.view.nodes.size) : ∀ x ∈ r.entering v, x.InBounds :=
  List.forall_mem_cons.2 ⟨inBounds_incomingAt hv, inBounds_index r.inStep.incoming⟩

theorem inBounds_gathering (hc : r.view.Closed) : ∀ x ∈ r.gathering, x.InBounds := by
  rw [gathering, List.forall_mem_append, List.forall_mem_map, List.forall_mem_flatMap]
  refine ⟨fun v hv => List.mem_range.1 hv, fun v hv => ?_⟩
  obtain ⟨p, hp, hv⟩ := List.mem_flatten.1 hv
  have hv := Graph.lt_of_mem_components hc hp hv
  rw [List.forall_mem_append, List.forall_mem_append, List.forall_mem_map]
  refine ⟨⟨inBounds_leaving hv, inBounds_entering hv⟩, fun w hw => ?_⟩
  rw [bothWays_eq] at hw
  exact inBounds_nodeAt (Graph.lt_of_adjacent hc (Graph.leads_bothWays.1 hw))

end Arena

/-- What is known about a node is about seeds and levels that there are. -/
structure NodeFacts.InBounds (g : Graph) (l : Lattice) (f : NodeFacts) : Prop where
  state : ∀ a, f.state.level? = some a → a < l.size
  levels : ∀ a o, f.levels.get? a = some o → a < l.size ∧ o.seed < g.nodes.size

namespace NodeFacts

variable {g : Graph} {l : Lattice} {f : NodeFacts} {a b : Level} {o : Origin}

theorem joined?_lt (hl : l.Lawful) (ha : a < l.size) (h : f.joined? l a = some b) :
    b < l.size := by
  rw [NodeFacts.joined?] at h
  split at h
  · cases h
    exact ha
  · exact Lattice.lt_of_join? hl h
  · exact Lattice.lt_of_join? hl h
  · cases h

theorem InBounds.add (hl : l.Lawful) (hf : f.InBounds g l) (ha : a < l.size)
    (ho : o.seed < g.nodes.size) : (f.add l a o).InBounds g l := by
  refine ⟨fun b hb => ?_, fun c o' hc => ?_⟩
  · rw [state_add] at hb
    split at hb
    · rename_i c hc
      cases hb
      exact joined?_lt hl ha hc
    · cases hb
  · rw [get?_add] at hc
    split at hc
    · rename_i heq
      cases hc
      exact ⟨heq ▸ ha, ho⟩
    · exact hf.levels c o' hc

end NodeFacts

namespace Spread

open NodeFacts Enclave.Flow

variable {g : Graph} {r : Arena} {l : Lattice} {members : List NodeId} {s : Flow} {v : NodeId}
  {a b : Level} {o : Origin} {f : NodeFacts}

theorem inBounds_landing (hf : f.InBounds r.view l) (hv : v < r.view.nodes.size)
    (ha : a < l.size) (ho : o.seed < r.view.nodes.size) :
    ∀ x ∈ landing r l f v a o, x.InBounds := by
  simp only [landing, List.forall_mem_append, List.forall_mem_flatMap, List.forall_mem_cons,
    List.not_mem_nil, false_imp_iff, implies_true, and_true, Option.mem_toList]
  refine ⟨⟨⟨Arena.inBounds_nodeAt hv, Arena.inBounds_nodeAt ho, ha⟩, fun p hp => ?_⟩,
    fun t ht => ?_⟩
  · obtain ⟨hlevel, hseed⟩ := hf.levels p.1 p.2 (SortedMap.get?_eq_some_iff.2 hp)
    exact ⟨Access.inBounds_cell ha hlevel, Arena.inBounds_nodeAt hseed⟩
  · have ht := hf.state t ht
    exact ⟨Access.inBounds_cell ht ha, ht⟩

theorem inBounds_arriving (hl : l.Lawful) (hv : v < r.view.nodes.size) (fuel : Nat)
    (hf : f.InBounds r.view l) (ha : a < l.size) (ho : o.seed < r.view.nodes.size) :
    ∀ x ∈ arriving r l v fuel f a o, x.InBounds := by
  induction fuel generalizing f a o with
  | zero => exact fun _ hx => absurd hx List.not_mem_nil
  | succ fuel ih =>
    rw [arriving, List.forall_mem_append]
    refine ⟨inBounds_landing hf hv ha ho, ?_⟩
    split
    · -- a join that is raised starts at the node itself, so its origin is in bounds as well
      rename_i b _ hb
      exact ih (hf.add hl ha ho) (joined?_lt hl ha (raised?_eq_some.1 hb).1) hv
    · exact fun _ hx => absurd hx List.not_mem_nil

theorem target_lt (hc : g.Closed) {u : NodeId} {e : Edge × EdgeId} (he : e ∈ g.successors u) :
    e.1.target < g.nodes.size := by
  have hedge := (Graph.mem_successors.1 he).1
  exact (hc e.1 (Array.mem_toList_iff.2 (Array.mem_of_getElem? hedge))).2

theorem rules_inBounds (hl : l.Lawful) (hg : g.Over l) (hc : g.Closed)
    (hm : ∀ v ∈ members, v < g.nodes.size) : Rules g l members (fun _ => True)
      fun v a o => v < g.nodes.size ∧ a < l.size ∧ o.seed < g.nodes.size where
  seed v _ hv ha := ⟨hm v hv, hg.seed_lt ha, hm v hv⟩
  sent u _ _ hu ha he _ _ := ⟨target_lt hc (mem_returnEdges.1 he).1, hg.return_lt ha, hm u hu⟩
  onward _ _ _ _ h he _ _ := ⟨target_lt hc (mem_onwardEdges.1 he).1, h.2⟩
  raised _ _ _ _ _ _ h _ hj := ⟨h.1, Lattice.lt_of_join? hl hj, h.1⟩

section Flows

variable (hl : l.Lawful) (hg : g.Over l) (hc : g.Closed) (hm : ∀ v ∈ members, v < g.nodes.size)

include hl hg hc hm

theorem Reachable.bounds (h : Reachable g l members s)
    (ho : (s.factsOf v).levels.get? a = some o) :
    v < g.nodes.size ∧ a < l.size ∧ o.seed < g.nodes.size :=
  h.justified hl hg (rules_inBounds hl hg hc hm) (fun _ _ => trivial) v a o ho

theorem Reachable.inBounds (h : Reachable g l members s) (v : NodeId) :
    (s.factsOf v).InBounds g l := by
  refine ⟨fun a ha => ?_, fun a o ho => (h.bounds hl hg hc hm ho).2⟩
  rcases (h.steady hl hg v).cases with ⟨hs, -⟩ | hs | ⟨t, hs, ⟨o, ht⟩, -⟩
  · rw [hs] at ha
    cases ha
  · rw [hs] at ha
    cases ha
  · rw [hs] at ha
    cases ha
    exact (h.bounds hl hg hc hm ht).2.1

theorem Cause.bounds (hs : Reachable g l members s) (h : Cause g members s v a o) :
    v < g.nodes.size ∧ a < l.size ∧ o.seed < g.nodes.size :=
  h.justified (rules_inBounds hl hg hc hm) (fun _ _ => trivial) fun _ _ _ ho =>
    hs.bounds hl hg hc hm ho

theorem Sends.bounds {e : Edge × EdgeId} (hs : Reachable g l members s)
    (h : Sends g members s a o e) :
    e.1.target < g.nodes.size ∧ a < l.size ∧ o.seed < g.nodes.size := by
  cases h with
  | @sent u hu ha he ho =>
    subst ho
    exact ⟨target_lt hc (mem_returnEdges.1 he).1, hg.return_lt ha, hm u hu⟩
  | onward ho he =>
    exact ⟨target_lt hc (mem_onwardEdges.1 he).1, (hs.bounds hl hg hc hm ho).2⟩

end Flows

theorem lt_of_allowedInstead (hg : g.Over l)
    (h : g.nodes[v]?.bind (allowedInstead · a) = some b) : b < l.size := by
  obtain ⟨n, hn, h⟩ := Option.bind_eq_some_iff.1 h
  rw [allowedInstead] at h
  split at h
  · cases h
  · rename_i code hcode
    split at h
    · cases h
    · rcases Option.or_eq_some_iff.1 h with h | ⟨-, h⟩
      · exact hg.seed_lt (v := v) (by rw [hn]; exact h)
      · obtain ⟨t, ht, hcode⟩ := Option.bind_eq_some_iff.1 hcode
        obtain ⟨x, hx, ht⟩ := Option.bind_eq_some_iff.1 ht
        exact ((hg.of_getElem? hn hx).code t ht code hcode).2 b (List.mem_of_mem_head? h)

end Spread

def Side.InBounds (g : Graph) (l : Lattice) (side : Side) : Prop :=
  side.seed < g.nodes.size ∧ side.level < l.size

structure Witness.InBounds (g : Graph) (l : Lattice) (w : Witness) : Prop where
  incoming : w.incoming.InBounds g l
  existing : w.existing.InBounds g l
  meeting : w.meeting < g.nodes.size

namespace Spread

variable {g : Graph} {r : Arena} {l : Lattice} {members : List NodeId} {s : Flow} {v : NodeId}
  {a : Level} {o : Origin} {f : NodeFacts} {kind : ConflictKind} {w : Witness}

theorem inBounds_evidence (hg : g.Over l) (hf : f.InBounds g l) (hv : v < g.nodes.size)
    (ha : a < l.size) (ho : o.seed < g.nodes.size) (hw : w ∈ evidence g l f v a o kind) :
    w.InBounds g l := by
  rcases mem_evidence.1 hw with ⟨p, hp, rfl⟩ | ⟨b, hb, rfl⟩
  · obtain ⟨hlevel, hseed⟩ := hf.levels p.1 p.2 (mem_of_mem_opponents hp)
    exact ⟨⟨ho, ha⟩, ⟨hseed, hlevel⟩, hv⟩
  · exact ⟨⟨ho, ha⟩, ⟨hv, lt_of_allowedInstead hg hb⟩, hv⟩

theorem Reachable.inBounds_witnesses (hl : l.Lawful) (hg : g.Over l) (hc : g.Closed)
    (hm : ∀ v ∈ members, v < g.nodes.size) (h : Reachable g l members s) :
    ∀ w ∈ s.witnesses.toList, w.InBounds g l := by
  refine h.forall_witnesses (P := fun _ w => w.InBounds g l) (fun _ hw => hw) ?_
  intro s s' v a o via hs hcause _ w hw
  have hf := hs.inBounds hl hg hc hm v
  obtain ⟨hv, ha, ho⟩ := hcause.bounds hl hg hc hm hs
  obtain ⟨-, hw | ⟨b, hb, hw⟩⟩ := mem_testimony.1 hw
  · exact inBounds_evidence hg hf hv ha ho hw
  · have hb := NodeFacts.joined?_lt hl ha (NodeFacts.raised?_eq_some.1 hb).1
    exact inBounds_evidence hg (hf.add hl ha ho) hv hb hv hw

theorem Stage.inBounds_accesses (hl : l.Lawful) (hg : r.view.Over l) (hc : r.view.Closed)
    (hm : ∀ v ∈ members, v < r.view.nodes.size) {st : Stage}
    (hs : st.Sound r.view l members) : ∀ x ∈ st.accesses r l, x.InBounds := by
  obtain ⟨flow, sending, tasks, log⟩ := st
  have hfacts := hs.flow.inBounds hl hg hc hm
  cases sending with
  | cons d ds =>
    obtain ⟨a, o, e⟩ := d
    obtain ⟨htarget, ha, ho⟩ := hs.sending.head.bounds hl hg hc hm hs.flow
    refine List.forall_mem_cons.2 ⟨Arena.inBounds_nodeAt htarget, ?_⟩
    dsimp only
    split
    · exact List.forall_mem_singleton.2 ha
    · exact inBounds_arriving hl htarget _ (hfacts _) ha ho
  | nil =>
    cases tasks with
    | nil => exact fun _ hx => absurd hx List.not_mem_nil
    | cons t ts =>
      cases t with
      | plant v =>
        have hv := hm v (hs.plant v List.mem_cons_self)
        refine List.forall_mem_cons.2 ⟨Arena.inBounds_nodeAt hv, ?_⟩
        rw [List.forall_mem_flatMap]
        intro a ha
        exact inBounds_arriving hl hv _ (hfacts v) (hg.seed_lt (Option.mem_toList.1 ha)) hv
      | sendReturn v =>
        have hv := hm v (hs.sendReturn v List.mem_cons_self)
        exact List.forall_mem_cons.2 ⟨Arena.inBounds_nodeAt hv, Arena.inBounds_leaving hv⟩
      | forward p =>
        simp only [accesses]
        split
        · rename_i o ho
          have hv := (hs.flow.bounds hl hg hc hm ho).1
          exact List.forall_mem_cons.2 ⟨Arena.inBounds_nodeAt hv, Arena.inBounds_leaving hv⟩
        · exact fun _ hx => absurd hx List.not_mem_nil
      | round => exact fun _ hx => absurd hx List.not_mem_nil

end Spread

section Outcomes

variable {r : Arena} {l : Lattice} {settings : SolverSettings} {s : Solution} (hl : l.Lawful)
  (hg : r.view.Over l) (hc : r.view.Closed) (hs : r.view.solve l settings = .ok s)

include hl hg hc hs

theorem Solution.reached?_lt {v : NodeId} {a : Level} (h : Assignment.reached? s v = some a) :
    a < l.size := by
  have hsolved := Graph.solved_of_solve hl hg hc hs
  rw [Assignment.reached?, Solution.state_eq] at h
  rcases (hsolved.steady v).cases with ⟨hstate, -⟩ | hstate | ⟨t, hstate, ht, -⟩
  · rw [hstate] at h
    cases h
  · rw [hstate] at h
    cases h
  · rw [hstate] at h
    cases h
    exact hsolved.lt v a ht

theorem Assignment.inBounds_accesses {A : Assignment}
    (hlevels : 0 < r.view.nodes.size → 0 < l.size) (hA : ofSolution r.view l s = .ok A) :
    ∀ x ∈ A.accesses r l, x.InBounds := by
  have hdefault : ∀ v < r.view.nodes.size, ∀ a, l.default = some a → a < l.size := by
    intro v hv a ha
    obtain ⟨b, hb, hlt⟩ := hl.default (hlevels (Nat.zero_lt_of_lt hv))
    rw [hb] at ha
    cases ha
    exact hlt
  have hlevel : ∀ v < r.view.nodes.size, ∀ a, A.level? v = some a → a < l.size := by
    intro v hv a ha
    obtain ⟨b, hb, hfor⟩ := level?_ofSolution hA hv
    rw [ha] at hb
    cases hb
    rw [levelFor] at hfor
    split at hfor
    · rename_i b hreached
      cases hfor
      exact Solution.reached?_lt hl hg hc hs hreached
    · split at hfor
      · rename_i b hb
        cases hfor
        exact hdefault v hv a hb
      · cases hfor
  simp only [accesses, List.forall_mem_append, List.forall_mem_flatMap, List.forall_mem_cons,
    List.forall_mem_map, Option.mem_toList]
  refine ⟨fun v hv => ?_, fun v hv => ?_⟩
  · rw [List.mem_range, ← r.size_nodes] at hv
    exact ⟨Arena.inBounds_nodeAt hv, hlevel v hv⟩
  · obtain ⟨levels, -, hA⟩ := bind_eq_ok.1 hA
    cases hA
    have hv := List.mem_range.1 (List.mem_filter.1 hv).1
    exact ⟨Arena.inBounds_nodeAt hv, hdefault v hv⟩

theorem Solution.inBounds_witnesses : ∀ w ∈ s.witnesses, w.InBounds r.view l := by
  intro w hw
  obtain ⟨p, f, hf, hw⟩ := (Graph.composed_of_solve hl hg hc hs).witnesses w hw
  exact hf.reachable.inBounds_witnesses hl hg hc
    (fun v hv => Graph.lt_of_mem_components hc hf.part hv) w hw

omit hl hg hs in
theorem Side.inBounds_accesses {side : Side} (h : side.InBounds r.view l) {meeting : NodeId}
    (hmeeting : meeting < r.view.nodes.size) :
    ∀ x ∈ side.accesses r l s meeting, x.InBounds := by
  have htrail : ∀ t ∈ Search.trails r.view.nodes.size
      (r.view.stepsFrom fun e => s.carried.contains (e.2, side.level)) [side.seed],
      ∀ v ∈ t.nodes, v < r.view.nodes.size := by
    refine Search.forall_nodes_trails (P := (· < r.view.nodes.size))
      (fun u v _ => hc.lt_of_leads u v) fun u hu => ?_
    rw [List.mem_singleton.1 hu]
    exact h.1
  simp only [accesses, List.forall_mem_append, List.forall_mem_flatMap, List.forall_mem_cons,
    List.forall_mem_map, List.not_mem_nil, false_imp_iff, implies_true, and_true]
  refine ⟨⟨⟨Arena.inBounds_nodeAt h.1, h.2⟩, fun v hv => ?_⟩, fun v hv => ?_⟩
  · obtain ⟨t, ht, rfl⟩ := List.mem_map.1 (SortedSet.mem_ofList.1 hv)
    exact Arena.inBounds_leaving (htrail t ht t.last (by simp [Trail.nodes]))
  · refine Arena.inBounds_nodeAt ?_
    rw [Explanation.tracePath, Graph.shortestPath?] at hv
    cases hfound : Search.trailTo? r.view.nodes.size
        (r.view.stepsFrom fun e => s.carried.contains (e.2, side.level))
        (SortedSet.ofList [side.seed]).toList meeting with
    | none =>
      rw [hfound] at hv
      have hends : v = side.seed ∨ v = meeting := by simpa using hv
      rcases hends with rfl | rfl
      · exact h.1
      · exact hmeeting
    | some t =>
      rw [hfound] at hv
      exact htrail t (List.mem_of_find?_eq_some hfound) v hv

theorem Witness.inBounds_accesses {w : Witness} (hw : w ∈ s.witnesses) :
    ∀ x ∈ w.accesses r l s, x.InBounds := by
  obtain ⟨hincoming, hexisting, hmeeting⟩ := Solution.inBounds_witnesses hl hg hc hs w hw
  simp only [accesses, List.forall_mem_cons, List.forall_mem_flatMap, List.not_mem_nil,
    false_imp_iff, implies_true, and_true]
  exact ⟨Arena.inBounds_nodeAt hmeeting, Side.inBounds_accesses hc hincoming hmeeting,
    Side.inBounds_accesses hc hexisting hmeeting⟩

end Outcomes

/-- Whatever the program, all that its analysis accesses is there. -/
theorem Analysis.inBounds_of_accesses {settings : AnalysisSettings} {program : Program}
    {x : Access} (h : Accesses settings program x) : x.InBounds := by
  cases h with
  | lattice hx => exact Lattice.inBounds_accesses _ _ x hx
  | labels _ hx => exact LabelDecls.inBounds_accesses _ _ x hx
  | finding hx => exact Arena.inBounds_finding x hx
  | linking hu hv hx =>
    exact Arena.inBounds_linking (Arena.lt_of_byName hu) (Arena.lt_of_byName hv) x hx
  | components hp hr hx => exact Arena.inBounds_gathering (hr ▸ (valid_of_prepare hp).closed) x hx
  | @spread p r members budget st x hp hr hm hst hx =>
    have hvalid := valid_of_prepare hp
    have hsound := hst.sound hvalid.lawful hvalid.labels
    have hlt : ∀ v ∈ members, v < p.graph.nodes.size := fun v hv =>
      Graph.lt_of_mem_components hvalid.closed hm hv
    rw [← hr] at hsound hlt
    exact Spread.Stage.inBounds_accesses hvalid.lawful (hr ▸ hvalid.labels) (hr ▸ hvalid.closed) hlt
      hsound x hx
  | partition hp hr hs hA hx =>
    have hvalid := valid_of_prepare hp
    rw [← hr] at hs hA
    exact Assignment.inBounds_accesses hvalid.lawful (hr ▸ hvalid.labels) (hr ▸ hvalid.closed) hs
      (hr ▸ hvalid.levels) hA x hx
  | conflict hp hr hs hw hx =>
    have hvalid := valid_of_prepare hp
    rw [← hr] at hs
    exact Witness.inBounds_accesses hvalid.lawful (hr ▸ hvalid.labels) (hr ▸ hvalid.closed) hs hw x
      hx

-- a delivery along an edge that leads nowhere is not in bounds
example : ∃ x ∈ (⟨{ budget := ⟨9, 0⟩ }, [⟨0, .start 0, ⟨0, 1, .single .data, none⟩, 0⟩], [], []⟩ :
    Spread.Stage).accesses ∅ ⟨["p"], #[[0]], [], some 0⟩, x = .entry .nodes 1 0 ∧ ¬ x.InBounds := by
  decide +kernel

end Enclave
