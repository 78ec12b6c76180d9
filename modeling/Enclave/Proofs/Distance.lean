import Enclave.Proofs.Components
import Enclave.Proofs.Reaching
import Mathlib.Data.Finset.Card

/-!
# Enclave.Proofs.Distance

No level is recorded farther from where it started than there are nodes that hold it. A level goes
one edge farther only to a node that did not hold it, so every edge it has travelled is paid for by
a node. It follows that the sums of distances that propagation takes fit their word as long as the
graph has fewer than half as many nodes as the word has values.
-/

namespace Enclave

attribute [local instance] lexOrd

def Witness.Within (w : Witness) (n : Nat) : Prop :=
  w.incoming.distance ≤ n ∧ w.existing.distance ≤ n

namespace Spread

open NodeFacts Enclave.Flow

variable {g : Graph} {l : Lattice} {members : List NodeId} {s s' : Flow} {u v : NodeId}
  {a b : Level} {o : Origin} {kind : ConflictKind}

def holders (g : Graph) (s : Flow) (a : Level) : Finset NodeId :=
  (Finset.range g.nodes.size).filter fun v => (s.factsOf v).levels.contains a = true

theorem mem_holders : v ∈ holders g s a ↔ v < g.nodes.size ∧ s.Holds v a := by
  rw [holders, Finset.mem_filter, Finset.mem_range, contains_levels_iff]
  rfl

theorem card_holders_le : (holders g s a).card ≤ g.nodes.size := by
  refine (Finset.card_filter_le _ _).trans ?_
  rw [Finset.card_range]

theorem holders_subset (h : ∀ v, s.Holds v a → s'.Holds v a) : holders g s a ⊆ holders g s' a := by
  intro v hv
  rw [mem_holders] at hv ⊢
  exact ⟨hv.1, h v hv.2⟩

theorem card_holders_lt (h : ∀ w, s.Holds w a → s'.Holds w a) (hv : v < g.nodes.size)
    (hnew : ¬ s.Holds v a) (hnow : s'.Holds v a) :
    (holders g s a).card < (holders g s' a).card := by
  refine Finset.card_lt_card ⟨holders_subset h, fun hsub => hnew ?_⟩
  exact (mem_holders.1 (hsub (mem_holders.2 ⟨hv, hnow⟩))).2

theorem Cause.node_lt (hg : g.Closed) (h : Cause g members s v a o) : v < g.nodes.size := by
  have htarget : ∀ u (e : Edge × EdgeId), e ∈ g.successors u → e.1.target < g.nodes.size := by
    intro u e he
    have := (Graph.mem_successors.1 he).1
    exact (hg e.1 (Array.mem_toList_iff.2 (Array.mem_of_getElem? this))).2
  cases h with
  | seed _ hseed =>
    obtain ⟨n, hn, -⟩ := Option.bind_eq_some_iff.1 hseed
    exact (Array.getElem?_eq_some_iff.1 hn).1
  | sent _ _ he => exact htarget _ _ (mem_returnEdges.1 he).1
  | onward _ he => exact htarget _ _ (mem_onwardEdges.1 he).1

theorem distance_le_of_order {o o' : Origin} (h : (o.order g o').isLT = true) :
    o.distance ≤ o'.distance := by
  rw [Origin.order] at h
  by_contra hlt
  rw [Nat.compare_eq_gt.2 (Nat.lt_of_not_le hlt)] at h
  cases h

/-- Every recorded distance is at most the number of nodes that hold the level. -/
def Near (g : Graph) (s : Flow) : Prop :=
  ∀ v a o, (s.factsOf v).levels.get? a = some o → o.distance ≤ (holders g s a).card

theorem Cause.distance_le (hs : Near g s) (h : Cause g members s v a o) :
    o.distance ≤ (holders g s a).card + 1 := by
  cases h with
  | seed => exact Nat.zero_le _
  | sent => exact Nat.le_add_left 1 _
  | onward ho => exact Nat.succ_le_succ (hs _ _ _ ho)

theorem Reachable.near (hg : g.Closed) (h : Reachable g l members s) : Near g s := by
  induction h with
  | start hf _ =>
    intro v a o ho
    rw [factsOf_empty hf] at ho
    cases ho
  | @book s s' _ hf _ _ ih =>
    intro v a o ho
    rw [factsOf_of_facts_eq hf] at ho
    refine (ih v a o ho).trans (Finset.card_le_card (holders_subset fun w hw => ?_))
    rwa [Flow.Holds, factsOf_of_facts_eq hf]
  | @arrive s s' v a o via _ hcause harr ih =>
    have hold : ∀ b (o' : Origin), o'.distance ≤ (holders g s b).card →
        o'.distance ≤ (holders g s' b).card := fun b o' hle =>
      hle.trans (Finset.card_le_card (holders_subset fun _ => harr.holds_of_holds))
    intro w b o' ho'
    by_cases hw : w = v
    · subst hw
      rw [harr.here] at ho'
      rcases origin_receive ho' with ho' | ⟨rfl, rfl, hnearer⟩ | ⟨-, -, rfl⟩
      · exact hold b o' (ih w b o' ho')
      · by_cases hknown : s.Holds w b
        · obtain ⟨known, hk⟩ := hknown
          exact hold b o' ((distance_le_of_order (hnearer known hk)).trans (ih w b known hk))
        · exact (hcause.distance_le ih).trans (card_holders_lt (fun _ => harr.holds_of_holds)
            (hcause.node_lt hg) hknown harr.holds)
      · exact Nat.zero_le _
    · rw [harr.factsOf_of_ne hw] at ho'
      exact hold b o' (ih w b o' ho')

theorem mem_of_nearest? {f : NodeFacts} {p : Level × Origin} (h : f.nearest? g = some p) :
    f.levels.get? p.1 = some p.2 := by
  have hfold : ∀ (ps : List (Level × Origin)) (q : Level × Origin),
      ps.foldl (fun best q => if (q.2.order g best.2).isLT then q else best) q ∈ q :: ps := by
    intro ps
    induction ps with
    | nil => intro q; simp
    | cons r ps ih =>
      intro q
      rw [List.foldl_cons]
      split
      · exact List.mem_cons_of_mem q (ih r)
      · have := ih q
        simp only [List.mem_cons] at this ⊢
        tauto
  rw [nearest?] at h
  split at h
  · cases h
  · rename_i q ps hq
    cases h
    rw [SortedMap.get?_eq_some_iff, hq]
    exact hfold ps q

theorem mem_of_mem_opponents {f : NodeFacts} {p : Level × Origin} (h : p ∈ opponents g l f a) :
    f.levels.get? p.1 = some p.2 := by
  rw [opponents] at h
  split at h
  · split at h
    · exact mem_of_nearest? (by simpa using h)
    · cases h
  · exact (mem_clashes.1 h).1

theorem within_evidence {f : NodeFacts} {n : Nat} (ho : o.distance ≤ n)
    (hf : ∀ c o', f.levels.get? c = some o' → o'.distance ≤ n) {w : Witness}
    (hw : w ∈ evidence g l f v a o kind) : w.Within n := by
  rw [evidence, List.mem_append, List.mem_map, List.mem_map] at hw
  rcases hw with ⟨p, hp, rfl⟩ | ⟨b, -, rfl⟩
  · exact ⟨ho, hf _ _ (mem_of_mem_opponents hp)⟩
  · exact ⟨ho, Nat.zero_le _⟩

theorem within_testimony {f : NodeFacts} {n : Nat} (ho : ¬ f.Holds a → o.distance ≤ n)
    (hf : ∀ c o', f.levels.get? c = some o' → o'.distance ≤ n) {w : Witness}
    (hw : w ∈ testimony g l f v a o kind) : w.Within n := by
  rw [testimony] at hw
  split at hw
  · cases hw
  · rename_i hnone
    have ho := ho (not_holds_iff.2 hnone)
    rcases List.mem_append.1 hw with hw | hw
    · exact within_evidence ho hf hw
    · split at hw
      · cases hw
      · refine within_evidence (Nat.zero_le n) (fun c o' hc => ?_) hw
        rw [get?_add] at hc
        split at hc
        · cases hc
          exact ho
        · exact hf c o' hc

theorem mem_of_mem_record {ws ws' : WitnessSet} {x w : Witness} (h : ws.record x = .ok ws')
    (hw : w ∈ ws'.toList) : w = x ∨ w ∈ ws.toList := by
  rcases WitnessSet.record_cases h with ⟨rfl, -⟩ | rfl
  · exact .inr hw
  · obtain ⟨k, hk⟩ := SortedMap.mem_values.1 hw
    rw [SortedMap.get?_insert] at hk
    split at hk
    · exact .inl (by simpa using hk.symm)
    · exact .inr (SortedMap.mem_values.2 ⟨k, hk⟩)

theorem combinedDistance_ok {n : Nat} (hn : 2 * n < word32) {w : Witness} (h : w.Within n) :
    ∃ d, w.combinedDistance = .ok d := by
  obtain ⟨h₁, h₂⟩ := h
  refine ⟨w.incoming.distance + w.existing.distance, ?_⟩
  rw [Witness.combinedDistance, addBelow, if_pos (by omega)]

theorem recordAll_ends {n : Nat} {xs : List Witness} {ws : WitnessSet}
    (hxs : ∀ w ∈ xs, w.Within n) (hws : ∀ w ∈ ws.toList, w.Within n) :
    Ends (fun ws' => ∀ w ∈ ws'.toList, w.Within n) (fun _ => word32 ≤ 2 * n)
      (ws.recordAll xs) := by
  refine Ends.foldlM_of_mem (fun x hx ws hws => ?_) hws
  cases hr : ws.record x with
  | ok ws' =>
    intro w hw
    rcases mem_of_mem_record hr hw with rfl | hw
    · exact hxs w hx
    · exact hws w hw
  | error c =>
    by_contra hn
    rw [WitnessSet.record] at hr
    split at hr
    · cases hr
    · rename_i kept hkept
      obtain ⟨d, hd⟩ := combinedDistance_ok (Nat.lt_of_not_le hn)
        (hws kept (SortedMap.mem_values.2 ⟨_, hkept⟩))
      obtain ⟨d', hd'⟩ := combinedDistance_ok (Nat.lt_of_not_le hn) (hxs x hx)
      rw [hd, hd'] at hr
      cases hr

theorem Cause.within_testimony (hg : g.Closed) (hs : Near g s) (h : Cause g members s v a o)
    {w : Witness} (hw : w ∈ testimony g l (s.factsOf v) v a o kind) :
    w.Within g.nodes.size := by
  refine Spread.within_testimony (fun hnew => ?_)
    (fun c o' hc => (hs v c o' hc).trans card_holders_le) hw
  have hcard : (holders g s a).card < (Finset.range g.nodes.size).card := by
    refine Finset.card_lt_card ⟨Finset.filter_subset _ _, fun hsub => hnew ?_⟩
    exact (mem_holders.1 (hsub (Finset.mem_range.2 (h.node_lt hg)))).2
  rw [Finset.card_range] at hcard
  exact (h.distance_le hs).trans hcard

theorem Reachable.within_witnesses (hg : g.Closed) (h : Reachable g l members s) :
    ∀ w ∈ s.witnesses.toList, w.Within g.nodes.size := by
  induction h with
  | start _ hw =>
    intro w h
    rw [hw] at h
    cases h
  | book _ _ hw _ ih => rwa [hw]
  | @arrive s s' v a o via hs hcause harr ih =>
    have hxs : ∀ w ∈ testimony g l (s.factsOf v) v a o (kindOf via), w.Within g.nodes.size :=
      fun w hw => hcause.within_testimony hg (hs.near hg) hw
    have := recordAll_ends hxs ih
    rwa [harr.witnesses] at this

end Spread

end Enclave
