import Enclave.Proofs.Consistency
import Enclave.Proofs.Preparing

/-!
# Enclave.Proofs.Exactness

Where a join of two levels is always one of them, spreading levels computes a least fixed point. The
lattices of this kind (`Lattice.Selective`) are those of separate enclaves and unions of chains,
with any exclusions. `Derived` states by three rules which levels a node has, without rounds, states
or joins.

* `exact_of_selective`: the levels known of a node are those derived, a solution is consistent
  exactly when the derived levels are, and then the state of a node is its greatest derived level.
-/

namespace Enclave

/-- The levels that nodes have by their seeds and by what travels along edges. -/
inductive Derived (g : Graph) : NodeId → Level → Prop
  | seed {v : NodeId} {a : Level} : g.nodes[v]?.bind (·.seed?) = some a → Derived g v a
  | sent {e : Edge} {a : Level} : e ∈ g.edges.toList → e.kinds.isPureData = true →
      g.nodes[e.source]?.bind (·.singleReturn?) = some a → ¬ g.Admits e a → Derived g e.target a
  | onward {e : Edge} {a : Level} : Derived g e.source a → e ∈ g.edges.toList →
      ¬ ((g.nodes[e.source]?.bind (·.singleReturn?)).isSome ∧ e.kinds.isPureData = true) →
      ¬ g.Admits e a → Derived g e.target a

/-- A family of levels that contains the seeds and that nothing which travels an edge leaves. -/
structure Graph.Keeps (g : Graph) (P : NodeId → Level → Prop) : Prop where
  seed : ∀ v a, g.nodes[v]?.bind (·.seed?) = some a → P v a
  sent : ∀ e ∈ g.edges.toList, e.kinds.isPureData = true →
    ∀ a, g.nodes[e.source]?.bind (·.singleReturn?) = some a → ¬ g.Admits e a → P e.target a
  onward : ∀ e ∈ g.edges.toList,
    ¬ ((g.nodes[e.source]?.bind (·.singleReturn?)).isSome ∧ e.kinds.isPureData = true) →
    ∀ a, P e.source a → ¬ g.Admits e a → P e.target a

namespace Graph.Keeps

variable {g : Graph} {P : NodeId → Level → Prop} {v : NodeId} {a : Level}

theorem derived : g.Keeps (Derived g) :=
  ⟨fun _ _ => .seed, fun _ he hpure _ => .sent he hpure, fun _ he hown _ ha => .onward ha he hown⟩

theorem of_derived (hP : g.Keeps P) (h : Derived g v a) : P v a := by
  induction h with
  | seed ha => exact hP.seed _ _ ha
  | sent he hpure hret hadm => exact hP.sent _ he hpure _ hret hadm
  | onward _ he hown hadm ih => exact hP.onward _ he hown _ ih hadm

end Graph.Keeps

/-- A family of levels that holds all that a spread of levels can bring about, joins included. -/
structure Graph.Bounds (g : Graph) (l : Lattice) (P : NodeId → Level → Prop) : Prop
    extends g.Keeps P where
  raised : ∀ v t a b, P v t → P v a → l.join? t a = some b → P v b

namespace Spread

open NodeFacts

variable {g : Graph} {l : Lattice} {s : Solution} {v : NodeId} {a b : Level}

theorem Solved.keeps (hcl : g.Closed) (hs : Solved g l g.components.flatten s) :
    g.Keeps s.Holds := by
  refine ⟨fun v a ha => ?_, fun e he hpure a hret hadm => ?_, fun e he hown a ha hadm => ?_⟩
  · obtain ⟨n, hn, -⟩ := Option.bind_eq_some_iff.1 ha
    have hv := (Graph.mem_flatten_components hcl).2 (Array.getElem?_eq_some_iff.1 hn).1
    exact hs.seeds v hv a ha
  · obtain ⟨i, hi⟩ := exists_successor he
    have hv := (Graph.mem_flatten_components hcl).2 (hcl e he).1
    exact (hs.returns e.source hv a hret (e, i) (mem_returnEdges.2 ⟨hi, hpure⟩)).holds hadm
  · obtain ⟨i, hi⟩ := exists_successor he
    exact (hs.onward e.source a ha (e, i) (mem_onwardEdges.2 ⟨hi, hown⟩)).holds hadm

theorem Solved.holds_of_derived (hcl : g.Closed) (hs : Solved g l g.components.flatten s)
    (h : Derived g v a) : s.Holds v a :=
  (hs.keeps hcl).of_derived h

theorem Solved.holds_within {P : NodeId → Level → Prop} {members : List NodeId}
    (hs : Solved g l members s) (hP : g.Bounds l P) (ha : s.Holds v a) : P v a := by
  obtain ⟨o, ho⟩ := ha
  refine hs.justified (fun v a _ => P v a) ⟨fun v a _ => hP.seed v a, ?_, ?_,
    fun v t a b _ _ => hP.raised v t a b⟩ v a o ho
  · intro u a e _ hret he hadm _
    obtain ⟨hsucc, hpure⟩ := mem_returnEdges.1 he
    obtain ⟨hmem, rfl⟩ := mem_edges_of_mem_successors hsucc
    exact hP.sent e.1 hmem hpure a hret (admits_eq_false.1 hadm)
  · intro u a _ e hu he hadm _
    obtain ⟨hsucc, hown⟩ := mem_onwardEdges.1 he
    obtain ⟨hmem, rfl⟩ := mem_edges_of_mem_successors hsucc
    exact hP.onward e.1 hmem hown a hu (admits_eq_false.1 hadm)

/-- On a selective lattice joins add nothing to the derived levels. -/
theorem bounds_derived (hl : l.Lawful) (hsel : l.Selective) : g.Bounds l (Derived g) where
  toKeeps := .derived
  raised v t a b ht ha hjoin := by
    by_cases hne : t = a
    · subst hne
      rwa [Lattice.join?_self hl hjoin]
    · rcases hsel.join hl hne hjoin with rfl | rfl
      · exact ht
      · exact ha

theorem Solved.holds_iff_derived (hl : l.Lawful) (hsel : l.Selective) (hcl : g.Closed)
    (hs : Solved g l g.components.flatten s) : s.Holds v a ↔ Derived g v a :=
  ⟨hs.holds_within (bounds_derived hl hsel), hs.holds_of_derived hcl⟩

theorem not_torn_of_selective (hl : l.Lawful) (hsel : l.Selective) {f : NodeFacts}
    (h : ∀ a b, f.Holds a → f.Holds b → a ≠ b → l.compatible a b = true) : ¬ f.Torn l := by
  rintro ⟨a, b, ha, hb, hjoin, hself⟩
  by_cases hab : a = b
  · obtain ⟨t, u, hne, -, -, htu, hat, hau⟩ := hself hab
    rcases hsel.join hl hne htu with h | h
    · exact hat h
    · exact hau h
  · have := h a b ha hb hab
    rw [Lattice.compatible, hjoin] at this
    cases this

end Spread

/-- The solution says of every node what follows from the rules, and is consistent if they are. -/
structure Exact (g : Graph) (l : Lattice) (s : Solution) : Prop where
  facts : ∀ v a, s.Holds v a ↔ Derived g v a
  consistent : s.isConsistent = true ↔ ∀ v,
    (∀ a b, Derived g v a → Derived g v b → a ≠ b → l.compatible a b = true) ∧
      ∀ code, g.nodes[v]?.bind (·.code?) = some code → ∀ a, Derived g v a → a ∈ code.toList
  states : s.isConsistent = true → ∀ v, s.Reached v → ∃ m, s.state v = .tentative m ∧
    Derived g v m ∧ ∀ a, Derived g v a → l.dominatedBy a m = true

namespace Graph

/--
On a selective lattice every graph whose labels speak of the levels of the lattice is solved
exactly, with every cap that lets the solver finish.
-/
theorem exact_of_selective {names : List String} {spec : LatticeSpec} {l : Lattice} {g : Graph}
    {settings : SolverSettings} {s : Solution} (hl : Lattice.build names spec = .ok l)
    (hsel : l.Selective) (hcl : g.Closed) (hg : g.Over l) (hs : g.solve l settings = .ok s) :
    Exact g l s := by
  have hlawful := Lattice.build_lawful hl
  have hsolved := solved_of_solve hlawful hg hcl hs
  have hfacts : ∀ v a, s.Holds v a ↔ Derived g v a := fun v a =>
    hsolved.holds_iff_derived hlawful hsel hcl
  refine ⟨hfacts, ⟨fun hcons v => ⟨fun a b ha hb hne => ?_, fun code hcode a ha => ?_⟩,
    fun h => ?_⟩, fun hcons v hv => ?_⟩
  · exact hsolved.compatible hcons ((hfacts v a).2 ha) ((hfacts v b).2 hb) hne
  · exact hsolved.mem_code hcons hcode ((hfacts v a).2 ha)
  · have hpairs : ∀ v a b, s.Holds v a → s.Holds v b → a ≠ b → l.compatible a b = true :=
      fun v a b ha hb => (h v).1 a b ((hfacts v a).1 ha) ((hfacts v b).1 hb)
    exact hsolved.isConsistent_of hpairs
      (fun v => Spread.not_torn_of_selective hlawful hsel (hpairs v))
      fun v code a hcode ha => (h v).2 code hcode a ((hfacts v a).1 ha)
  · obtain ⟨m, hstate, hm, hgreatest⟩ := hsolved.exists_greatest hcons hv
    exact ⟨m, hstate, (hfacts v m).1 hm, fun a ha => hgreatest a ((hfacts v a).2 ha)⟩

/-- A chain of three levels and one apart, and a cycle that two of them reach. -/
def chained : Program where
  labels := {
    functions := .ofList [
      ("sensor", { level := some "low" }),
      ("filter", { taint := some {
        returns := some ["mid"], arguments := some ["low"], code := some ["low", "mid"] } }),
      ("store", { level := some "high" })] }
  ir := {
    defUse := [⟨"sensor", "filter", none⟩, ⟨"filter", "view", none⟩, ⟨"view", "store", none⟩,
      ⟨"sensor", "view", none⟩, ⟨"view", "view", none⟩] }
  pdg := { control := [⟨"sensor", "filter", none⟩] }

def chainedLevels : LatticeSpec where
  levels := ["side"]
  order := [("low", "mid"), ("mid", "high")]
  exclusive := [("side", "low")]

theorem exact_of_selective_chained : ∃ names l g s, Lattice.build names chainedLevels = .ok l ∧
    l.Selective ∧ g.Closed ∧ g.Over l ∧ g.solve l {} = .ok s ∧ s.isConsistent = true ∧
    Exact g l s := by
  have hrun : (Analysis.prepare { lattice := chainedLevels } chained).toOption.any (fun r =>
      r.toOption.any fun p => (p.graph.solve p.lattice {}).toOption.any fun s =>
        decide (s.isConsistent = true ∧ p.lattice.Selective)) = true := by decide +kernel
  obtain ⟨r, hp, hr⟩ := exists_ok_of_any hrun
  obtain ⟨p, rfl, hsolve⟩ := exists_ok_of_any hr
  obtain ⟨s, hs, hcheck⟩ := exists_ok_of_any hsolve
  obtain ⟨hcons, hsel⟩ := of_decide_eq_true hcheck
  have hvalid := Analysis.valid_of_prepare hp
  have hlattice := (Analysis.prepare_eq_ok hp).1
  exact ⟨_, p.lattice, p.graph, s, hlattice, hsel, hvalid.closed, hvalid.labels, hs, hcons,
    exact_of_selective hlattice hsel hvalid.closed hvalid.labels hs⟩

end Graph

end Enclave
