import Enclave.Proofs.Queueing
import Mathlib.Data.List.Lex

/-!
# Enclave.Proofs.LeastPaths

Which of several shortest paths is found. A search that takes up its starting nodes and the
successors of every node in ascending order has each layer in the order of words over the numbers of
nodes, and meets every node first by the least of its shortest trails.

`InOrder` says this of one layer. The layer after it is in order again because a node is met from
the first trail of the layer that leads to it, and the trails of a layer all have one length.

* `Search.least_of_trailTo?`: a trail that is found is the least of the shortest ones.
* `Graph.shortestPath_least`: what this says of paths through a graph.
-/

namespace Enclave

theorem append_lt_append {p q : List Nat} (h : p < q) (hlength : p.length = q.length)
    (r s : List Nat) : p ++ r < q ++ s := by
  induction h with
  | nil => cases hlength
  | rel hlt => exact .rel hlt
  | cons _ ih => exact .cons (ih (Nat.succ.inj hlength))

namespace Trail

variable {t u : Trail}

theorem extend_lt_of_lt {v w : Nat} (h : t.nodes < u.nodes) (hlength : t.length = u.length) :
    (t.extend v).nodes < (u.extend w).nodes := by
  rw [nodes_extend, nodes_extend]
  exact append_lt_append h (by rw [length_nodes, length_nodes, hlength]) [v] [w]

theorem extend_lt_extend (t : Trail) {v w : Nat} (h : v < w) :
    (t.extend v).nodes < (t.extend w).nodes := by
  rw [nodes_extend, nodes_extend]
  exact List.append_left_lt (.rel h)

theorem extend_le_extend (v : Nat) (h : t.nodes ≤ u.nodes) (hlength : t.length = u.length) :
    (t.extend v).nodes ≤ (u.extend v).nodes := by
  rcases h.lt_or_eq with hlt | heq
  · exact (extend_lt_of_lt hlt hlength).le
  · rw [nodes_extend, nodes_extend, heq]

end Trail

namespace Search

variable {succ : Nat → List Nat} {count depth : Nat} {starts seen vs : List Nat}
  {layer : List Trail} {t : Trail}

theorem fresh_sublist (seen vs : List Nat) : (fresh seen vs).Sublist vs := by
  induction vs generalizing seen with
  | nil => exact .slnil
  | cons v vs ih =>
    simp only [fresh]
    split
    · exact (ih seen).cons v
    · exact (ih (v :: seen)).cons_cons v

theorem ascending_fresh (seen : List Nat) (h : vs.Pairwise (· ≤ ·)) :
    (fresh seen vs).Pairwise (· < ·) :=
  (h.sublist (fresh_sublist seen vs)).imp₂ (fun _ _ => Nat.lt_of_le_of_ne) (nodup_fresh seen vs)

/-- A layer whose trails have one length is followed by one in the same order. -/
theorem ascending_nextLayer (hsucc : ∀ u, (succ u).Pairwise (· ≤ ·))
    (hlength : ∀ t ∈ layer, t.length = depth)
    (h : layer.Pairwise fun t u => t.nodes < u.nodes) :
    (nextLayer succ seen layer).Pairwise fun t u => t.nodes < u.nodes := by
  induction layer generalizing seen with
  | nil => exact .nil
  | cons t ts ih =>
    obtain ⟨hfirst, hrest⟩ := List.pairwise_cons.1 h
    refine List.pairwise_append.2 ⟨?_, ?_, ?_⟩
    · exact List.pairwise_map.2
        ((ascending_fresh seen (hsucc t.last)).imp fun hlt => t.extend_lt_extend hlt)
    · exact ih (fun u hu => hlength u (List.mem_cons_of_mem t hu)) hrest
    · intro x hx y hy
      obtain ⟨v, -, rfl⟩ := List.mem_map.1 hx
      obtain ⟨before, u, after, w, rfl, -, -, rfl, -⟩ := exists_of_mem_nextLayer hy
      have hu : u ∈ before ++ u :: after := by simp
      refine Trail.extend_lt_of_lt (hfirst u hu) ?_
      rw [hlength t List.mem_cons_self, hlength u (List.mem_cons_of_mem t hu)]

/-- The trails of a layer ascend, and each is the least of its length that ends where it does. -/
structure InOrder (succ : Nat → List Nat) (starts : List Nat) (layer : List Trail) : Prop where
  ascending : layer.Pairwise fun t u => t.nodes < u.nodes
  least : ∀ t ∈ layer, ∀ t', Follows succ starts t' → t'.last = t.last → t'.length = t.length →
    t.nodes ≤ t'.nodes

namespace InOrder

theorem roots (hstarts : starts.Pairwise (· < ·)) :
    InOrder succ starts ((fresh [] starts).map (⟨·, []⟩)) where
  ascending := by
    refine List.pairwise_map.2 ((ascending_fresh [] (hstarts.imp Nat.le_of_lt)).imp fun hlt => ?_)
    exact .rel hlt
  least t ht t' ht' hlast hlength := by
    obtain ⟨s, -, rfl⟩ := List.mem_map.1 ht
    cases ht' with
    | root _ =>
      cases hlast
      exact le_refl _
    | extend _ _ => cases hlength

theorem next (hsucc : ∀ u, (succ u).Pairwise (· ≤ ·)) (h : InOrder succ starts layer)
    (hdepth : AtDepth succ starts depth seen layer) (hf : Frontier succ seen layer) :
    InOrder succ starts (nextLayer succ seen layer) where
  ascending := ascending_nextLayer hsucc (fun t ht => (hdepth.follows t ht).2) h.ascending
  least t ht t' ht' hlast hlength := by
    obtain ⟨before, u, after, v, rfl, -, hnew, rfl, hfirst⟩ := exists_of_mem_nextLayer ht
    have hu := (hdepth.follows u (by simp)).2
    cases ht' with
    | root _ => cases hlength
    | @extend w v' hw hlead =>
      have hv : v' = v := hlast
      subst hv
      have hwlength : w.length = u.length := Nat.succ.inj hlength
      -- a node before this layer would have led to the new node already
      have hends : w.last ∈ ends (before ++ u :: after) := by
        by_contra hnot
        exact hnew (hf.done _ (hdepth.met w hw (by omega)) hnot _ hlead)
      obtain ⟨u', hu', hlast'⟩ := List.mem_map.1 hends
      have hle : u.nodes ≤ u'.nodes := by
        rcases List.mem_append.1 hu' with hbefore | hafter
        · exact absurd (hlast' ▸ hlead) (hfirst u' hbefore)
        · rcases List.mem_cons.1 hafter with rfl | hafter
          · exact le_refl _
          · have hpair := (List.pairwise_append.1 h.ascending).2.1
            exact ((List.pairwise_cons.1 hpair).1 u' hafter).le
      have hlength' : w.length = u'.length := by
        rw [hwlength, hu, (hdepth.follows u' hu').2]
      have hle' := h.least u' hu' w hw hlast'.symm hlength'
      exact Trail.extend_le_extend v' (hle.trans hle') hwlength.symm

end InOrder

/-- The trail is shortest, and the least of those that are. -/
structure Least (succ : Nat → List Nat) (starts : List Nat) (t : Trail) : Prop
    extends Shortest succ starts t where
  first : ∀ t', Follows succ starts t' → t'.last = t.last → t'.length = t.length →
    t.nodes ≤ t'.nodes

theorem least_of_mem_trails (hsucc : ∀ u, (succ u).Pairwise (· ≤ ·))
    (hstarts : starts.Pairwise (· < ·)) (count : Nat) :
    ∀ t ∈ trails count succ starts, Least succ starts t := by
  refine forall_mem_layers
    (I := fun seen layer => ∃ depth, AtDepth succ starts depth seen layer ∧
      Frontier succ seen layer ∧ InOrder succ starts layer) ?_ ?_ count
    ⟨0, .roots, .roots, .roots hstarts⟩
  · rintro seen layer ⟨depth, hdepth, hfrontier, horder⟩
    exact ⟨depth + 1, hdepth.next hfrontier, hfrontier.next, horder.next hsucc hdepth hfrontier⟩
  · rintro seen layer ⟨depth, hdepth, -, horder⟩ t ht
    exact ⟨hdepth.shortest t ht, horder.least t ht⟩

theorem least_of_trailTo? (hsucc : ∀ u, (succ u).Pairwise (· ≤ ·))
    (hstarts : starts.Pairwise (· < ·)) {goal : Nat}
    (h : trailTo? count succ starts goal = some t) : Least succ starts t ∧ t.last = goal :=
  ⟨least_of_mem_trails hsucc hstarts count t (List.mem_of_find?_eq_some h),
    (shortest_of_trailTo? h).2⟩

theorem exists_follows {nodes : List Nat} (hfirst : ∃ s ∈ starts, nodes.head? = some s)
    (hsteps : nodes.IsChain (Leads succ)) : ∃ t, Follows succ starts t ∧ t.nodes = nodes := by
  induction nodes using List.reverseRecOn with
  | nil =>
    obtain ⟨s, -, hhead⟩ := hfirst
    cases hhead
  | append_singleton init v ih =>
    obtain ⟨s, hs, hhead⟩ := hfirst
    cases init with
    | nil =>
      cases hhead
      exact ⟨⟨v, []⟩, .root hs, rfl⟩
    | cons u us =>
      obtain ⟨hinit, -, hlast⟩ := List.isChain_append.1 hsteps
      obtain ⟨t, ht, hnodes⟩ := ih ⟨s, hs, hhead⟩ hinit
      have hlead : Leads succ t.last v := by
        refine hlast t.last ?_ v rfl
        rw [← hnodes]
        exact t.getLast?_nodes
      exact ⟨t.extend v, ht.extend hlead, by rw [Trail.nodes_extend, hnodes]⟩

end Search

namespace Graph

variable {g : Graph} {follow : Edge × EdgeId → Bool} {starts : List NodeId} {goal : NodeId}
  {path : List NodeId}

/-- A path along followed edges from one of the starting nodes to the goal, both included. -/
structure Connects (g : Graph) (follow : Edge × EdgeId → Bool) (starts : List NodeId)
    (goal : NodeId) (path : List NodeId) : Prop where
  first : ∃ s ∈ starts, path.head? = some s
  last : path.getLast? = some goal
  steps : path.IsChain (g.Steps follow)

theorem ascending_stepsFrom (g : Graph) (follow : Edge × EdgeId → Bool) (u : NodeId) :
    (g.stepsFrom follow u).Pairwise (· ≤ ·) := by
  have hsorted := pairwise_sortOn (·.1.target) (g.numberedEdges.filter (·.1.source == u))
  refine List.pairwise_map.2 ((hsorted.sublist List.filter_sublist).imp fun hle => ?_)
  exact Nat.isLE_compare.1 hle

theorem connects_iff_follows : g.Connects follow starts goal path ↔
    ∃ t, Search.Follows (g.stepsFrom follow) (SortedSet.ofList starts).toList t ∧
      t.last = goal ∧ t.nodes = path := by
  constructor
  · rintro ⟨⟨s, hs, hhead⟩, hlast, hsteps⟩
    obtain ⟨t, ht, rfl⟩ := Search.exists_follows ⟨s, SortedSet.mem_ofList.2 hs, hhead⟩
      (hsteps.imp fun _ _ => leads_stepsFrom.2)
    rw [Trail.getLast?_nodes, Option.some_inj] at hlast
    exact ⟨t, ht, hlast, rfl⟩
  · rintro ⟨t, ht, rfl, rfl⟩
    obtain ⟨s, hs, hhead⟩ := ht.head?
    exact ⟨⟨s, SortedSet.mem_ofList.1 hs, hhead⟩, t.getLast?_nodes,
      ht.isChain.imp fun _ _ => leads_stepsFrom.1⟩

/-- The path is one to the goal, with the fewest edges, and of those the least by its nodes. -/
structure LeastPath (g : Graph) (follow : Edge × EdgeId → Bool) (starts : List NodeId)
    (goal : NodeId) (path : List NodeId) : Prop where
  connects : g.Connects follow starts goal path
  shortest : ∀ other, g.Connects follow starts goal other → path.length ≤ other.length
  least : ∀ other, g.Connects follow starts goal other → other.length = path.length →
    path = other ∨ List.Lex (· < ·) path other

theorem leastPath_of_shortestPath? (h : g.shortestPath? starts goal follow = some path) :
    g.LeastPath follow starts goal path := by
  obtain ⟨t, ht, rfl⟩ := Option.map_eq_some_iff.1 h
  have hstarts : (SortedSet.ofList starts).toList.Pairwise (· < ·) :=
    (SortedSet.ofList starts).ascending.imp Nat.compare_eq_lt.1
  obtain ⟨hleast, hlast⟩ := Search.least_of_trailTo? (ascending_stepsFrom g follow) hstarts ht
  refine ⟨connects_iff_follows.2 ⟨t, hleast.follows, hlast, rfl⟩, ?_, ?_⟩
  · intro other hother
    obtain ⟨t', ht', hlast', rfl⟩ := connects_iff_follows.1 hother
    have hle := hleast.toShortest.least t' ht' (hlast'.trans hlast.symm)
    rw [Trail.length_nodes, Trail.length_nodes]
    omega
  · intro other hother hlength
    obtain ⟨t', ht', hlast', rfl⟩ := connects_iff_follows.1 hother
    rw [Trail.length_nodes, Trail.length_nodes] at hlength
    have hle := hleast.first t' ht' (hlast'.trans hlast.symm) (Nat.succ.inj hlength)
    rcases hle.lt_or_eq with hlt | heq
    · exact .inr hlt
    · exact .inl heq

theorem exists_shortestPath?_of_connects (hcl : g.Closed)
    (h : g.Connects follow starts goal path) :
    ∃ found, g.shortestPath? starts goal follow = some found := by
  obtain ⟨t, ht, rfl, -⟩ := connects_iff_follows.1 h
  obtain ⟨t', ht', -⟩ := Search.exists_trailTo? hcl.lt_of_leads ht
  exact ⟨t'.nodes, by rw [shortestPath?, ht', Option.map_some]⟩

/--
Between any starting nodes and any goal, along any choice of edges, a path is found exactly when
there is one, and it is the least of the shortest. A queue that keeps parents and walks back along
them finds the same path, also over the index in which an arena keeps the edges of the graph.
-/
theorem shortestPath_least (hg : g.Built) (starts : List NodeId) (goal : NodeId)
    (follow : Edge × EdgeId → Bool) :
    ((g.shortestPath? starts goal follow).isSome = true ↔
      ∃ path, g.Connects follow starts goal path) ∧
    (∀ path, g.shortestPath? starts goal follow = some path →
      g.LeastPath follow starts goal path) ∧
    ((∀ s ∈ starts, s < g.nodes.size) → ∀ n, g.nodes.size ≤ n →
      Queue.find (g.stepsFrom follow) (SortedSet.ofList starts).toList goal n =
        g.shortestPath? starts goal follow) ∧
    g.Kept ∧ ∀ a : Arena, a.view = g → a.steps follow = g.stepsFrom follow := by
  refine ⟨⟨fun h => ?_, ?_⟩, fun path => leastPath_of_shortestPath?, fun hstarts n hn => ?_,
    hg.kept, fun a hview => ?_⟩
  · obtain ⟨path, hpath⟩ := Option.isSome_iff_exists.1 h
    exact ⟨path, (leastPath_of_shortestPath? hpath).connects⟩
  · rintro ⟨path, hpath⟩
    exact Option.isSome_iff_exists.2 (exists_shortestPath?_of_connects hg.closed hpath)
  · exact find_eq_shortestPath? hg.closed hstarts hn
  · rw [a.steps_eq, hview]

/-- Two ways from `a` to `d`, the second of which ends in a call, and a part by itself. -/
def forkedBy : List Operation :=
  [.connect "a" "b" .data none, .connect "a" "c" .data none, .connect "b" "d" .data none,
    .connect "c" "d" .call none, .connect "f" "e" .control none]

def forked : Graph := (History.replay forkedBy).graph

theorem shortestPath_least_forked : forked.Built ∧
    forked.LeastPath (fun _ => true) [4, 0, 0] 3 [0, 1, 3] ∧
    forked.LeastPath (fun e => e.1.kinds.contains .call || e.1.target != 3) [4, 0, 0] 3 [0, 2, 3] ∧
    (¬ ∃ path, forked.Connects (fun _ => true) [0] 5 path) ∧
    Queue.find ((Arena.replay forkedBy).steps fun _ => true) [0, 4] 3 6 = some [0, 1, 3] := by
  have hbuilt : forked.Built := .replayed _
  obtain ⟨-, hleast, hqueue, -, harena⟩ := shortestPath_least hbuilt [4, 0, 0] 3 fun _ => true
  refine ⟨hbuilt, hleast _ (by decide +kernel),
    (shortestPath_least hbuilt _ _ _).2.1 _ (by decide +kernel), fun hpath => ?_, ?_⟩
  · have hnone : (forked.shortestPath? [0] 5 fun _ => true).isSome = false := by decide +kernel
    rw [(shortestPath_least hbuilt [0] 5 fun _ => true).1.2 hpath] at hnone
    cases hnone
  · have hfound : forked.shortestPath? [4, 0, 0] 3 (fun _ => true) = some [0, 1, 3] := by
      decide +kernel
    rw [harena _ (Arena.view_replay forkedBy), ← hfound]
    exact hqueue (by decide +kernel) 6 (by decide +kernel)

end Graph

end Enclave
