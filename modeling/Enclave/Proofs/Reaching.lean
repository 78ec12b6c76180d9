import Enclave.Proofs.Arrival
import Enclave.Proofs.Components

/-!
# Enclave.Proofs.Reaching

The flows that a spread of levels can go through, and what holds of all of them.

`Spread.Cause` lists the three reasons for which a level may arrive at a node; `Spread.Reachable` is
whatever such arrivals lead to from a flow in which nothing is known. Every invariant is shown here
once, by induction on `Reachable`:

* `Reachable.steady`: the state of each node is the join of its levels, as long as there is one.
* `Reachable.evident`: there is a witness exactly when some node is in trouble.
* `Reachable.justified`: facts lie within every family of facts that the rules keep.
-/

namespace Enclave

attribute [local instance] lexOrd

/-- A taint set names at least one level, and levels of the lattice only. -/
def SortedSet.Over (l : Lattice) (set : SortedSet Level) : Prop :=
  set.toList ≠ [] ∧ ∀ a ∈ set.toList, a < l.size

/-- The label speaks of the levels of the lattice. -/
structure Label.Over (l : Lattice) (x : Label) : Prop where
  level : ∀ a ∈ x.level, a < l.size
  returns : ∀ t ∈ x.taint, ∀ set ∈ t.returns, set.Over l
  arguments : ∀ t ∈ x.taint, ∀ set ∈ t.arguments, set.Over l
  code : ∀ t ∈ x.taint, ∀ set ∈ t.code, set.Over l

/-- Every label of the graph speaks of the levels of the lattice. -/
def Graph.Over (l : Lattice) (g : Graph) : Prop :=
  ∀ n ∈ g.nodes.toList, ∀ x ∈ n.label, x.Over l

namespace Graph

variable {g : Graph} {l : Lattice} {v : NodeId} {a : Level}

theorem Over.of_getElem? (hg : g.Over l) {n : Node} (h : g.nodes[v]? = some n) {x : Label}
    (hx : n.label = some x) : x.Over l :=
  hg n (Array.mem_toList_iff.2 (Array.mem_of_getElem? h)) x hx

theorem Over.seed_lt (hg : g.Over l) (h : g.nodes[v]?.bind (·.seed?) = some a) : a < l.size := by
  obtain ⟨n, hn, h⟩ := Option.bind_eq_some_iff.1 h
  obtain ⟨x, hx, h⟩ := Option.bind_eq_some_iff.1 h
  have hover := hg.of_getElem? hn hx
  rcases Option.or_eq_some_iff.1 h with h | ⟨-, h⟩
  · exact hover.level a h
  · obtain ⟨t, ht, h⟩ := Option.bind_eq_some_iff.1 h
    obtain ⟨set, hset, h⟩ := Option.bind_eq_some_iff.1 h
    exact (hover.code t ht set hset).2 a (SortedSet.single?_eq_some h)

theorem Over.return_lt (hg : g.Over l) (h : g.nodes[v]?.bind (·.singleReturn?) = some a) :
    a < l.size := by
  obtain ⟨n, hn, h⟩ := Option.bind_eq_some_iff.1 h
  obtain ⟨t, ht, h⟩ := Option.bind_eq_some_iff.1 h
  obtain ⟨x, hx, ht⟩ := Option.bind_eq_some_iff.1 ht
  obtain ⟨set, hset, h⟩ := Option.bind_eq_some_iff.1 h
  exact ((hg.of_getElem? hn hx).returns t ht set hset).2 a (SortedSet.single?_eq_some h)

theorem Over.listed (hg : g.Over l) : Spread.Listed g.nodes[v]? := by
  intro code h
  obtain ⟨n, hn, h⟩ := Option.bind_eq_some_iff.1 h
  obtain ⟨t, ht, h⟩ := Option.bind_eq_some_iff.1 h
  obtain ⟨x, hx, ht⟩ := Option.bind_eq_some_iff.1 ht
  exact ((hg.of_getElem? hn hx).code t ht code h).1

end Graph

/-- What recording one witness leaves: the set as it was, or the witness in place of its pair. -/
theorem WitnessSet.record_cases {ws ws' : WitnessSet} {x : Witness}
    (h : ws.record x = .ok ws') :
    (ws' = ws ∧ ∃ kept, ws.byPair.get? x.pair = some kept) ∨
      ws' = ⟨ws.byPair.insert x.pair x⟩ := by
  unfold WitnessSet.record at h
  cases hget : ws.byPair.get? x.pair with
  | none =>
    rw [hget] at h
    cases h
    exact .inr rfl
  | some kept =>
    rw [hget] at h
    obtain ⟨old, -, h⟩ := bind_eq_ok.1 h
    obtain ⟨new, -, h⟩ := bind_eq_ok.1 h
    cases h
    by_cases hle : old ≤ new
    · rw [if_pos hle]
      exact .inl ⟨rfl, kept, rfl⟩
    · rw [if_neg hle]
      exact .inr rfl

namespace Spread

open NodeFacts Enclave.Flow

variable {g : Graph} {l : Lattice} {members : List NodeId} {s s' : Flow} {u v : NodeId}
  {a : Level} {o : Origin}

theorem mem_returnEdges {e : Edge × EdgeId} :
    e ∈ returnEdges g u ↔ e ∈ g.successors u ∧ e.1.kinds.isPureData = true :=
  List.mem_filter

theorem mem_onwardEdges {e : Edge × EdgeId} :
    e ∈ onwardEdges g u ↔ e ∈ g.successors u ∧
      ¬ ((g.nodes[u]?.bind (·.singleReturn?)).isSome ∧ e.1.kinds.isPureData = true) := by
  rw [onwardEdges]
  split
  · rename_i h
    simp [h]
  · rename_i h
    simp [h]

/-- Why a level may arrive at a node: it is its seed, or it travelled along an edge. -/
inductive Cause (g : Graph) (members : List NodeId) (s : Flow) : NodeId → Level → Origin → Prop
  | seed {v : NodeId} {a : Level} : v ∈ members → g.nodes[v]?.bind (·.seed?) = some a →
      Cause g members s v a (.start v)
  | sent {u : NodeId} {a : Level} {e : Edge × EdgeId} : u ∈ members →
      g.nodes[u]?.bind (·.singleReturn?) = some a → e ∈ returnEdges g u →
      admits g e.1 a = false → (e.2, a) ∈ s.carried.toList → Cause g members s e.1.target a ⟨u, 1⟩
  | onward {u : NodeId} {a : Level} {o : Origin} {e : Edge × EdgeId} :
      (s.factsOf u).levels.get? a = some o → e ∈ onwardEdges g u → admits g e.1 a = false →
      (e.2, a) ∈ s.carried.toList → Cause g members s e.1.target a ⟨o.seed, o.distance + 1⟩

/-- The flows that arrivals lead to. What is neither known nor evidence may change in between. -/
inductive Reachable (g : Graph) (l : Lattice) (members : List NodeId) : Flow → Prop
  | start {s : Flow} : s.facts = ∅ → s.witnesses = {} → Reachable g l members s
  | book {s s' : Flow} : Reachable g l members s → s'.facts = s.facts →
      s'.witnesses = s.witnesses → (∀ p ∈ s.carried.toList, p ∈ s'.carried.toList) →
      Reachable g l members s'
  | arrive {s s' : Flow} {v : NodeId} {a : Level} {o : Origin} {via : Option Kinds} :
      Reachable g l members s → Cause g members s v a o → Arrival g l v a o (kindOf via) s s' →
      Reachable g l members s'

theorem factsOf_of_facts_eq (h : s'.facts = s.facts) : s'.factsOf v = s.factsOf v := by
  rw [factsOf, factsOf, h]

theorem factsOf_empty (h : s.facts = ∅) : s.factsOf v = {} := by
  rw [factsOf, h]
  rfl

theorem Cause.lt (hg : g.Over l) (hs : ∀ u b, s.Holds u b → b < l.size)
    (h : Cause g members s v a o) : a < l.size := by
  cases h with
  | seed _ h => exact hg.seed_lt h
  | sent _ h => exact hg.return_lt h
  | onward h => exact hs _ _ ⟨_, h⟩

/-- In every flow each node is steady, and at levels of the lattice. -/
theorem Reachable.steady_lt (hl : l.Lawful) (hg : g.Over l) (h : Reachable g l members s) :
    (∀ v, (s.factsOf v).Steady l) ∧ ∀ v a, s.Holds v a → a < l.size := by
  induction h with
  | start hf _ =>
    refine ⟨fun v => by rw [factsOf_empty hf]; exact steady_empty, fun v a ha => ?_⟩
    rw [Flow.Holds, factsOf_empty hf] at ha
    exact absurd ha not_holds_empty
  | book _ hf _ _ ih =>
    refine ⟨fun v => by rw [factsOf_of_facts_eq hf]; exact ih.1 v, fun v a ha => ih.2 v a ?_⟩
    rwa [Flow.Holds, factsOf_of_facts_eq hf] at ha
  | @arrive s s' v a o via _ hcause harr ih =>
    have ha := hcause.lt hg ih.2
    refine ⟨fun w => ?_, fun w b hb => ?_⟩
    · by_cases hw : w = v
      · subst hw
        rw [harr.here]
        exact steady_receive hl (ih.1 w) ha
      · rw [harr.factsOf_of_ne hw]
        exact ih.1 w
    · by_cases hw : w = v
      · subst hw
        rw [Flow.Holds, harr.here, holds_receive] at hb
        rcases hb with hb | rfl | ⟨-, hb⟩
        · exact ih.2 w b hb
        · exact ha
        · obtain ⟨t, -, -, hj⟩ := (ih.1 w).of_raised hb
          exact Lattice.lt_of_join? hl hj
      · rw [Flow.Holds, harr.factsOf_of_ne hw] at hb
        exact ih.2 w b hb

theorem Reachable.steady (hl : l.Lawful) (hg : g.Over l) (h : Reachable g l members s)
    (v : NodeId) : (s.factsOf v).Steady l :=
  (h.steady_lt hl hg).1 v

theorem Reachable.lt (hl : l.Lawful) (hg : g.Over l) (h : Reachable g l members s)
    (ha : s.Holds v a) : a < l.size :=
  (h.steady_lt hl hg).2 v a ha

theorem isEmpty_of_record {ws ws' : WitnessSet} {w : Witness} (h : ws.record w = .ok ws') :
    ws'.isEmpty = false := by
  rw [WitnessSet.isEmpty, ← Bool.not_eq_true, SortedMap.isEmpty_iff]
  intro hall
  have hnone := hall w.pair
  rcases WitnessSet.record_cases h with ⟨rfl, kept, hkept⟩ | rfl
  · rw [hkept] at hnone
    cases hnone
  · rw [SortedMap.get?_insert_self] at hnone
    cases hnone

theorem isEmpty_recordAll {xs : List Witness} {ws ws' : WitnessSet}
    (h : ws.recordAll xs = .ok ws') : ws'.isEmpty = false ↔ ws.isEmpty = false ∨ xs ≠ [] := by
  induction xs generalizing ws with
  | nil =>
    cases h
    simp
  | cons x xs ih =>
    rw [WitnessSet.recordAll, List.foldlM_cons] at h
    obtain ⟨ws₁, h₁, h⟩ := bind_eq_ok.1 h
    have := (ih h).2 (.inl (isEmpty_of_record h₁))
    simp [this]

/-- There is a witness exactly when there is trouble somewhere. -/
theorem Reachable.evident (hl : l.Lawful) (hg : g.Over l) (h : Reachable g l members s) :
    s.witnesses.isEmpty = false ↔ ∃ v, (s.factsOf v).Troubled l g.nodes[v]? := by
  induction h with
  | start hf hw =>
    rw [hw]
    constructor
    · intro h
      cases h
    · rintro ⟨v, hv⟩
      rw [factsOf_empty hf] at hv
      exact absurd hv not_troubled_empty
  | book _ hf hw _ ih =>
    rw [hw, ih]
    exact exists_congr fun v => by rw [factsOf_of_facts_eq hf]
  | @arrive s s' v a o via hs hcause harr ih =>
    have hv : ((s.factsOf v).receive g l v a o).Troubled l g.nodes[v]? ↔
        (s.factsOf v).Troubled l g.nodes[v]? ∨
          testimony g l (s.factsOf v) v a o (kindOf via) ≠ [] :=
      troubled_receive hl hg.listed (hs.steady hl hg v)
    rw [isEmpty_recordAll harr.witnesses, ih]
    constructor
    · rintro (⟨w, hw⟩ | hne)
      · by_cases hwv : w = v
        · subst hwv
          exact ⟨w, by rw [harr.here]; exact hv.2 (.inl hw)⟩
        · exact ⟨w, by rwa [harr.factsOf_of_ne hwv]⟩
      · exact ⟨v, by rw [harr.here]; exact hv.2 (.inr hne)⟩
    · rintro ⟨w, hw⟩
      by_cases hwv : w = v
      · subst hwv
        rw [harr.here] at hw
        exact (hv.1 hw).imp (fun h => ⟨w, h⟩) id
      · rw [harr.factsOf_of_ne hwv] at hw
        exact .inl ⟨w, hw⟩

/--
A family of facts that contains the seeds and that no step leaves: neither the one edge along which
a return level is sent, nor an edge along which a level goes on, nor a join at a node. Edges are
followed only with the levels that `C` allows.
-/
structure Rules (g : Graph) (l : Lattice) (members : List NodeId) (C : EdgeId × Level → Prop)
    (J : NodeId → Level → Origin → Prop) : Prop where
  seed : ∀ v a, v ∈ members → g.nodes[v]?.bind (·.seed?) = some a → J v a (.start v)
  sent : ∀ u a e, u ∈ members → g.nodes[u]?.bind (·.singleReturn?) = some a →
    e ∈ returnEdges g u → admits g e.1 a = false → C (e.2, a) → J e.1.target a ⟨u, 1⟩
  onward : ∀ u a o e, J u a o → e ∈ onwardEdges g u → admits g e.1 a = false → C (e.2, a) →
    J e.1.target a ⟨o.seed, o.distance + 1⟩
  raised : ∀ v t a b o o', J v t o → J v a o' → l.join? t a = some b → J v b (.start v)

theorem Cause.justified {C : EdgeId × Level → Prop} {J : NodeId → Level → Origin → Prop}
    (hJ : Rules g l members C J) (hC : ∀ p ∈ s.carried.toList, C p)
    (hs : ∀ u b o', (s.factsOf u).levels.get? b = some o' → J u b o')
    (h : Cause g members s v a o) : J v a o := by
  cases h with
  | seed hv ha => exact hJ.seed v a hv ha
  | sent hu hr he hadm hcar => exact hJ.sent _ a _ hu hr he hadm (hC _ hcar)
  | onward ho he hadm hcar => exact hJ.onward _ a _ _ (hs _ _ _ ho) he hadm (hC _ hcar)

/-- Facts lie within every family that the rules keep. -/
theorem Reachable.justified (hl : l.Lawful) (hg : g.Over l) {C : EdgeId × Level → Prop}
    {J : NodeId → Level → Origin → Prop} (hJ : Rules g l members C J)
    (h : Reachable g l members s) (hC : ∀ p ∈ s.carried.toList, C p) :
    ∀ v a o, (s.factsOf v).levels.get? a = some o → J v a o := by
  induction h with
  | start hf _ =>
    intro v a o ho
    rw [factsOf_empty hf] at ho
    cases ho
  | book _ hf _ hc ih =>
    intro v a o ho
    rw [factsOf_of_facts_eq hf] at ho
    exact ih (fun p hp => hC p (hc p hp)) v a o ho
  | @arrive s s' v a o via hs hcause harr ih =>
    rw [harr.carried] at hC
    have hold := ih hC
    have harrived := hcause.justified hJ hC hold
    intro w b o' ho'
    by_cases hw : w = v
    · subst hw
      rw [harr.here] at ho'
      -- an origin is an old one, the one that arrived, or that of a join raised here
      rcases origin_receive ho' with ho' | ⟨rfl, rfl, -⟩ | ⟨-, hr, rfl⟩
      · exact hold w b o' ho'
      · exact harrived
      · obtain ⟨t, -, ⟨o₁, ho₁⟩, hj⟩ := (hs.steady hl hg w).of_raised hr
        exact hJ.raised w t a b o₁ o (hold w t o₁ ho₁) harrived hj
    · rw [harr.factsOf_of_ne hw] at ho'
      exact hold w b o' ho'

theorem Reachable.within (hclosed : ∀ e ∈ g.edges.toList, e.source ∈ members → e.target ∈ members)
    (h : Reachable g l members s) : ∀ v f, s.facts.get? v = some f → v ∈ members := by
  have htarget : ∀ u e, u ∈ members → e ∈ g.successors u → e.1.target ∈ members := by
    intro u e hu he
    obtain ⟨hget, rfl⟩ := Graph.mem_successors.1 he
    exact hclosed e.1 (Array.mem_toList_iff.2 (Array.mem_of_getElem? hget)) hu
  induction h with
  | start hf _ =>
    intro v f hv
    rw [hf] at hv
    cases hv
  | book _ hf _ _ ih => rwa [hf]
  | @arrive s s' v a o via hs hcause harr ih =>
    have hv : v ∈ members := by
      cases hcause with
      | seed hv _ => exact hv
      | sent hu _ he _ _ => exact htarget _ _ hu (mem_returnEdges.1 he).1
      | @onward u a o e ho he _ _ =>
        cases hf : s.facts.get? u with
        | none =>
          rw [factsOf, hf] at ho
          cases ho
        | some f => exact htarget u e (ih u f hf) (mem_onwardEdges.1 he).1
    intro w f hf
    by_cases hw : w = v
    · exact hw ▸ hv
    · rw [harr.elsewhere w hw] at hf
      exact ih w f hf

theorem Reachable.mem_of_holds
    (hclosed : ∀ e ∈ g.edges.toList, e.source ∈ members → e.target ∈ members)
    (h : Reachable g l members s) (ha : s.Holds v a) : v ∈ members := by
  cases hf : s.facts.get? v with
  | none =>
    rw [Flow.Holds, factsOf, hf] at ha
    exact absurd ha not_holds_empty
  | some f => exact h.within hclosed v f hf

end Spread

end Enclave
