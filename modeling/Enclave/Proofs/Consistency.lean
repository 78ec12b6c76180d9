import Enclave.Partition.Assignment
import Enclave.Proofs.Solving

/-!
# Enclave.Proofs.Consistency

Solutions without witnesses. In such a solution the levels of a node have a greatest one, which is
the level that the node is assigned, any two of them are compatible, and all of them are levels that
its code taint lists.
-/

namespace Enclave

namespace Solution

def Reached (s : Solution) (v : NodeId) : Prop := ∃ a, s.Holds v a

end Solution

def Graph.Admits (g : Graph) (e : Edge) (a : Level) : Prop :=
  e.kinds.subset .boundary = true ∧ ∃ t args, g.nodes[e.target]?.bind (·.taint?) = some t ∧
    t.arguments = some args ∧ a ∈ args.toList

namespace Spread

open NodeFacts

variable {g : Graph} {l : Lattice} {members : List NodeId} {s : Solution} {v : NodeId}
  {a b : Level}

theorem admits_iff {e : Edge} : admits g e a = true ↔ g.Admits e a := by
  rw [admits, Bool.and_eq_true, Option.any_eq_true, Graph.Admits]
  refine and_congr_right fun _ => exists_congr fun t => ?_
  rw [Taint.admitsArgument, Option.any_eq_true]
  constructor
  · rintro ⟨ht, args, hargs, ha⟩
    exact ⟨args, ht, hargs, SortedSet.contains_iff.1 ha⟩
  · rintro ⟨args, ht, hargs, ha⟩
    exact ⟨ht, args, hargs, SortedSet.contains_iff.2 ha⟩

theorem admits_eq_false {e : Edge} : admits g e a = false ↔ ¬ g.Admits e a := by
  rw [← admits_iff, Bool.not_eq_true]

theorem Delivered.holds {e : Edge} {i : EdgeId} (h : Delivered g s (e, i) a)
    (hadm : ¬ g.Admits e a) : s.Holds e.target a :=
  (h.resolve_left fun h => hadm (admits_iff.1 h)).2

theorem exists_successor {e : Edge} (he : e ∈ g.edges.toList) :
    ∃ i, (e, i) ∈ g.successors e.source := by
  obtain ⟨i, hi⟩ := Array.mem_iff_getElem?.1 (Array.mem_toList_iff.1 he)
  exact ⟨i, Graph.mem_successors.2 ⟨hi, rfl⟩⟩

theorem mem_edges_of_mem_successors {e : Edge × EdgeId} (he : e ∈ g.successors v) :
    e.1 ∈ g.edges.toList ∧ e.1.source = v := by
  obtain ⟨hget, hsource⟩ := Graph.mem_successors.1 he
  exact ⟨Array.mem_toList_iff.2 (Array.mem_of_getElem? hget), hsource⟩

theorem Solved.isConsistent_iff (hs : Solved g l members s) :
    s.isConsistent = true ↔ ∀ v, ¬ (s.factsOf v).Troubled l g.nodes[v]? := by
  rw [← not_exists, ← hs.evident, Bool.not_eq_false]

theorem Solved.isConsistent_of (hs : Solved g l members s)
    (hpairs : ∀ v a b, s.Holds v a → s.Holds v b → a ≠ b → l.compatible a b = true)
    (htorn : ∀ v, ¬ (s.factsOf v).Torn l)
    (hcodes : ∀ v code a, g.nodes[v]?.bind (·.code?) = some code → s.Holds v a →
      a ∈ code.toList) : s.isConsistent = true := by
  refine hs.isConsistent_iff.2 fun v htrouble => ?_
  rcases htrouble with hstate | ⟨a, b, hne, ha, hb, hclash⟩ | ⟨a, code, hcode, ha, hout⟩
  · exact htorn v ((hs.steady v).torn hstate)
  · rw [hpairs v a b ha hb hne] at hclash
    cases hclash
  · rw [SortedSet.contains_iff.2 (hcodes v code a hcode ha)] at hout
    cases hout

theorem Solved.compatible (hs : Solved g l members s) (hcons : s.isConsistent = true)
    (ha : s.Holds v a) (hb : s.Holds v b) (hne : a ≠ b) : l.compatible a b = true := by
  by_contra hclash
  rw [Bool.not_eq_true] at hclash
  exact hs.isConsistent_iff.1 hcons v (.inr (.inl ⟨a, b, hne, ha, hb, hclash⟩))

theorem Solved.mem_code (hs : Solved g l members s) (hcons : s.isConsistent = true)
    {code : SortedSet Level} (hcode : g.nodes[v]?.bind (·.code?) = some code)
    (ha : s.Holds v a) : a ∈ code.toList := by
  by_contra hout
  rw [← SortedSet.contains_iff, Bool.not_eq_true] at hout
  exact hs.isConsistent_iff.1 hcons v (.inr (.inr ⟨a, code, hcode, ha, hout⟩))

theorem Solved.state_of_unreached (hs : Solved g l members s) (hv : ¬ s.Reached v) :
    s.state v = .unassigned := by
  rw [Solution.state_eq]
  exact (hs.steady v).started.2 fun a ha => hv ⟨a, ha⟩

/-- The levels of a node have a greatest one, which is the state of the node. -/
theorem Solved.exists_greatest (hs : Solved g l members s) (hcons : s.isConsistent = true)
    (hv : s.Reached v) : ∃ t, s.state v = .tentative t ∧ s.Holds v t ∧
      ∀ a, s.Holds v a → l.dominatedBy a t = true := by
  rw [Solution.state_eq]
  rcases (hs.steady v).cases with ⟨-, hnone⟩ | hconflict | htentative
  · obtain ⟨a, ha⟩ := hv
    exact absurd ha (hnone a)
  · exact absurd (.inl hconflict) (hs.isConsistent_iff.1 hcons v)
  · exact htentative

end Spread

namespace Assignment

variable {g : Graph} {l : Lattice} {s : Solution} {A : Assignment} {v : NodeId} {t : Level}

theorem length_ofSolution (h : ofSolution g l s = .ok A) : A.levels.length = g.nodes.size := by
  obtain ⟨levels, hlevels, h⟩ := bind_eq_ok.1 h
  cases h
  rw [(getElem?_of_mapM hlevels).1, Graph.nodeIds, List.length_range]

theorem ofSolution_isOk (hl : l.Lawful) (hlevels : 0 < g.nodes.size → 0 < l.size) :
    ∃ A, ofSolution g l s = .ok A := by
  have hmap : ∃ levels, g.nodeIds.mapM (levelFor g l s) = .ok levels := by
    refine mapM_isOk_iff.2 fun v hv => ?_
    obtain ⟨a, ha, -⟩ := hl.default (hlevels (Nat.zero_lt_of_lt (List.mem_range.1 hv)))
    rw [levelFor, ha]
    cases reached? s v <;> exact ⟨_, rfl⟩
  obtain ⟨levels, hlevels⟩ := hmap
  rw [ofSolution, hlevels]
  exact ⟨_, rfl⟩

theorem level?_ofSolution (h : ofSolution g l s = .ok A) (hv : v < g.nodes.size) :
    ∃ b, A.level? v = some b ∧ levelFor g l s v = .ok b := by
  obtain ⟨levels, hlevels, h⟩ := bind_eq_ok.1 h
  cases h
  exact (getElem?_of_mapM hlevels).2 v v (by rw [Graph.nodeIds, List.getElem?_range hv])

theorem level?_of_state (h : ofSolution g l s = .ok A) (hv : v < g.nodes.size)
    (ht : s.state v = .tentative t) : A.level? v = some t := by
  obtain ⟨b, hb, hlevel⟩ := level?_ofSolution h hv
  rw [levelFor, reached?, ht] at hlevel
  cases hlevel
  exact hb

theorem mem_defaulted {members : List NodeId} (hs : Spread.Solved g l members s)
    (hcons : s.isConsistent = true) (h : ofSolution g l s = .ok A) :
    v ∈ A.defaulted ↔ v < g.nodes.size ∧ ¬ s.Reached v := by
  obtain ⟨levels, -, h⟩ := bind_eq_ok.1 h
  cases h
  rw [List.mem_filter, Graph.nodeIds, List.mem_range, reached?]
  refine and_congr_right fun _ => ?_
  by_cases hreached : s.Reached v
  · obtain ⟨t, hstate, -⟩ := hs.exists_greatest hcons hreached
    simp [hstate, hreached, NodeState.finalize, NodeState.level?]
  · simp [hs.state_of_unreached hreached, hreached, NodeState.finalize, NodeState.level?]

theorem level?_of_unreached {members : List NodeId} (hs : Spread.Solved g l members s)
    (h : ofSolution g l s = .ok A) (hv : v < g.nodes.size) (hnone : ¬ s.Reached v) :
    A.level? v = l.default := by
  obtain ⟨b, hb, hlevel⟩ := level?_ofSolution h hv
  rw [levelFor, reached?, hs.state_of_unreached hnone] at hlevel
  cases hdefault : l.default with
  | none =>
    rw [hdefault] at hlevel
    cases hlevel
  | some a =>
    rw [hdefault] at hlevel
    cases hlevel
    exact hb

end Assignment

end Enclave
