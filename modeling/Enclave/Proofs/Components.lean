import Enclave.Dependence.Paths
import Enclave.Proofs.Collections
import Enclave.Proofs.Reachability
import Mathlib.Data.List.Nodup

/-!
# Enclave.Proofs.Components

The steps that a search takes through a graph, along its edges or in both directions, and what comes
of the second: the weakly connected components are a partition of the nodes that no edge crosses.

The nodes are gone through in ascending order, and a node that no component holds yet starts one. It
is the least of its component, because a smaller one would have started it before (`Parts.add`).
-/

namespace Enclave

namespace Graph

variable {g : Graph} {u v w : NodeId}

/-- Every edge joins two nodes of the graph. -/
def Closed (g : Graph) : Prop :=
  ∀ e ∈ g.edges.toList, e.source < g.nodes.size ∧ e.target < g.nodes.size

theorem mem_successors {e : Edge × EdgeId} :
    e ∈ g.successors v ↔ g.edges[e.2]? = some e.1 ∧ e.1.source = v := by
  rw [successors, (sortOn_perm _ _).mem_iff, List.mem_filter, numberedEdges, beq_iff_eq]
  obtain ⟨e, i⟩ := e
  rw [List.mem_zipIdx_iff_getElem?, Array.getElem?_toList]

section Following

variable {follow : Edge × EdgeId → Bool}

def Steps (g : Graph) (follow : Edge × EdgeId → Bool) (u v : NodeId) : Prop :=
  ∃ i e, g.edges[i]? = some e ∧ e.source = u ∧ e.target = v ∧ follow (e, i) = true

theorem leads_stepsFrom : Search.Leads (g.stepsFrom follow) u v ↔ g.Steps follow u v := by
  unfold Search.Leads stepsFrom Steps
  simp only [List.mem_map, List.mem_filter, mem_successors, Prod.exists]
  constructor
  · rintro ⟨e, i, ⟨⟨hget, hsource⟩, hfollow⟩, htarget⟩
    exact ⟨i, e, hget, hsource, htarget, hfollow⟩
  · rintro ⟨i, e, hget, hsource, htarget, hfollow⟩
    exact ⟨e, i, ⟨⟨hget, hsource⟩, hfollow⟩, htarget⟩

theorem Closed.lt_of_leads (hg : g.Closed) (u v : NodeId)
    (h : Search.Leads (g.stepsFrom follow) u v) : v < g.nodes.size := by
  obtain ⟨i, e, hget, -, rfl, -⟩ := leads_stepsFrom.1 h
  exact (hg e (Array.mem_toList_iff.2 (Array.mem_of_getElem? hget))).2

end Following

/-- An edge joins the two nodes, in one direction or the other. -/
def Adjacent (g : Graph) (v w : NodeId) : Prop :=
  ∃ e ∈ g.edges.toList, (e.source = v ∧ e.target = w) ∨ (e.source = w ∧ e.target = v)

theorem Adjacent.symm (h : g.Adjacent v w) : g.Adjacent w v := by
  obtain ⟨e, he, h⟩ := h
  exact ⟨e, he, h.symm⟩

theorem leads_neighbours : Search.Leads g.neighbours v w ↔ g.Adjacent v w := by
  simp only [Search.Leads, neighbours, List.mem_filterMap, Adjacent]
  refine exists_congr fun e => and_congr_right fun _ => ?_
  by_cases hs : e.source = v
  · by_cases ht : e.target = v <;> simp [hs, ht]
  · by_cases ht : e.target = v <;> simp [hs, ht]

theorem lt_of_adjacent (hg : g.Closed) (h : g.Adjacent v w) : w < g.nodes.size := by
  obtain ⟨e, he, ⟨-, rfl⟩ | ⟨rfl, -⟩⟩ := h
  · exact (hg e he).2
  · exact (hg e he).1

theorem mem_component (hg : g.Closed) :
    w ∈ g.component v ↔ Relation.ReflTransGen g.Adjacent v w := by
  have hrel : Search.Leads g.neighbours = g.Adjacent := by
    funext a b
    exact propext leads_neighbours
  rw [component, SortedSet.mem_ofList,
    Search.mem_reached fun _ _ h => lt_of_adjacent hg (leads_neighbours.1 h), hrel]
  simp

theorem ascending_component (g : Graph) (v : NodeId) : (g.component v).Pairwise (· < ·) :=
  (SortedSet.ofList _).ascending.imp Nat.compare_eq_lt.1

theorem lt_of_mem_component (hg : g.Closed) (hv : v < g.nodes.size) (h : w ∈ g.component v) :
    w < g.nodes.size := by
  cases (mem_component hg).1 h with
  | refl => exact hv
  | tail _ hlast => exact lt_of_adjacent hg hlast

theorem joined_symm (h : Relation.ReflTransGen g.Adjacent u v) :
    Relation.ReflTransGen g.Adjacent v u := by
  have hsymm : Std.Symm g.Adjacent := ⟨fun _ _ hadj => hadj.symm⟩
  exact Std.Symm.symm _ _ h

theorem mem_component_of_mem (hg : g.Closed) (hwu : w ∈ g.component u) (hwv : w ∈ g.component v) :
    v ∈ g.component u := by
  have huw := (mem_component hg).1 hwu
  have hvw := (mem_component hg).1 hwv
  exact (mem_component hg).2 (huw.trans (joined_symm hvw))

/-- What is known of the components found among the nodes below a number. -/
structure Parts (g : Graph) (bound : Nat) (parts : List (List NodeId)) : Prop where
  whole : ∀ p ∈ parts, ∃ v < bound, p = g.component v ∧ p.min? = some v
  disjoint : parts.Pairwise List.Disjoint
  covers : ∀ v < bound, ∃ p ∈ parts, v ∈ p
  ordered : parts.Pairwise fun p q => ∃ a b, p.min? = some a ∧ q.min? = some b ∧ a < b

theorem Parts.add (hg : g.Closed) {parts : List (List NodeId)} (h : g.Parts v parts) :
    g.Parts (v + 1) (if parts.any (·.contains v) then parts else parts ++ [g.component v]) := by
  have hwhole : ∀ p ∈ parts, ∃ u < v + 1, p = g.component u ∧ p.min? = some u := fun p hp =>
    have ⟨u, hu, hpu⟩ := h.whole p hp
    ⟨u, Nat.lt_succ_of_lt hu, hpu⟩
  split
  · rename_i hany
    obtain ⟨p, hp, hvp⟩ := List.any_eq_true.1 hany
    refine ⟨hwhole, h.disjoint, fun w hw => ?_, h.ordered⟩
    rcases Nat.lt_succ_iff_lt_or_eq.1 hw with hw | rfl
    · exact h.covers w hw
    · exact ⟨p, hp, by simpa using hvp⟩
  · rename_i hany
    have hself : v ∈ g.component v := (mem_component hg).2 .refl
    have hapart : ∀ p ∈ parts, p.Disjoint (g.component v) := by
      intro p hp w hwp hwv
      obtain ⟨u, -, rfl, -⟩ := h.whole p hp
      refine hany (List.any_eq_true.2 ⟨_, hp, ?_⟩)
      simpa using mem_component_of_mem hg hwp hwv
    have hmin : (g.component v).min? = some v := by
      refine List.min?_eq_some_iff.2 ⟨hself, fun w hw => ?_⟩
      by_contra hlt
      obtain ⟨p, hp, hwp⟩ := h.covers w (Nat.lt_of_not_le hlt)
      exact hapart p hp hwp hw
    refine ⟨fun p hp => ?_, ?_, fun w hw => ?_, ?_⟩
    · rcases List.mem_append.1 hp with hp | hp
      · exact hwhole p hp
      · rw [List.mem_singleton.1 hp]
        exact ⟨v, Nat.lt_succ_self v, rfl, hmin⟩
    · refine List.pairwise_append.2 ⟨h.disjoint, List.pairwise_singleton _ _, fun p hp q hq => ?_⟩
      rw [List.mem_singleton.1 hq]
      exact hapart p hp
    · rcases Nat.lt_succ_iff_lt_or_eq.1 hw with hw | rfl
      · obtain ⟨p, hp, hwp⟩ := h.covers w hw
        exact ⟨p, List.mem_append_left _ hp, hwp⟩
      · exact ⟨_, List.mem_append_right _ List.mem_cons_self, hself⟩
    · refine List.pairwise_append.2 ⟨h.ordered, List.pairwise_singleton _ _, fun p hp q hq => ?_⟩
      rw [List.mem_singleton.1 hq]
      obtain ⟨u, hu, -, humin⟩ := h.whole p hp
      exact ⟨u, v, humin, hmin, hu⟩

def componentsBelow (g : Graph) (bound : Nat) : List (List NodeId) :=
  (List.range bound).foldl
    (fun parts v => if parts.any (·.contains v) then parts else parts ++ [g.component v]) []

theorem componentsBelow_succ (g : Graph) (bound : Nat) : g.componentsBelow (bound + 1) =
    if (g.componentsBelow bound).any (·.contains bound) then g.componentsBelow bound
    else g.componentsBelow bound ++ [g.component bound] := by
  rw [componentsBelow, List.range_succ, List.foldl_append]
  rfl

theorem parts_componentsBelow (hg : g.Closed) (bound : Nat) :
    g.Parts bound (g.componentsBelow bound) := by
  induction bound with
  | zero => exact ⟨by simp [componentsBelow], .nil, by simp, .nil⟩
  | succ bound ih =>
    rw [componentsBelow_succ]
    exact ih.add hg

theorem parts_components (hg : g.Closed) : g.Parts g.nodes.size g.components :=
  parts_componentsBelow hg g.nodes.size

theorem exists_component (hg : g.Closed) (hv : v < g.nodes.size) : ∃ p ∈ g.components, v ∈ p :=
  (parts_components hg).covers v hv

theorem disjoint_components (hg : g.Closed) : g.components.Pairwise List.Disjoint :=
  (parts_components hg).disjoint

theorem ascending_of_mem_components (hg : g.Closed) {p : List NodeId} (hp : p ∈ g.components) :
    p.Pairwise (· < ·) := by
  obtain ⟨v, -, rfl, -⟩ := (parts_components hg).whole p hp
  exact ascending_component g v

theorem nodup_of_mem_components (hg : g.Closed) {p : List NodeId} (hp : p ∈ g.components) :
    p.Nodup :=
  (ascending_of_mem_components hg hp).imp Nat.ne_of_lt

theorem lt_of_mem_components (hg : g.Closed) {p : List NodeId} (hp : p ∈ g.components)
    (hv : v ∈ p) : v < g.nodes.size := by
  obtain ⟨u, hu, rfl, -⟩ := (parts_components hg).whole p hp
  exact lt_of_mem_component hg hu hv

theorem edge_within_component (hg : g.Closed) {p : List NodeId} (hp : p ∈ g.components) {e : Edge}
    (he : e ∈ g.edges.toList) : e.source ∈ p ↔ e.target ∈ p := by
  obtain ⟨v, -, rfl, -⟩ := (parts_components hg).whole p hp
  rw [mem_component hg, mem_component hg]
  exact ⟨fun h => h.tail ⟨e, he, .inl ⟨rfl, rfl⟩⟩, fun h => h.tail ⟨e, he, .inr ⟨rfl, rfl⟩⟩⟩

theorem mem_flatten_components (hg : g.Closed) : v ∈ g.components.flatten ↔ v < g.nodes.size := by
  rw [List.mem_flatten]
  constructor
  · rintro ⟨p, hp, hv⟩
    exact lt_of_mem_components hg hp hv
  · exact exists_component hg

theorem nodup_flatten_components (hg : g.Closed) : g.components.flatten.Nodup :=
  List.nodup_flatten.2 ⟨fun _ => nodup_of_mem_components hg, disjoint_components hg⟩

end Graph

end Enclave
