import Enclave.Proofs.Reachability
import Mathlib.Data.List.Chain

/-!
# Enclave.Proofs.ShortestPaths

The trails of the layered search are shortest.

`Follows` says of a trail that it takes one step of the successor function after another, from one
of the starting nodes; it speaks of the trails that the search finds and of all others alike.
`AtDepth` is what holds when the search has made its first layers: those of the last have the length
of the depth, and no trail that is shorter ends where they do.

* `shortest_of_mem_trails`: a trail of the search is followed, and none to the same node is shorter.
* `exists_trailTo?`: a node to which some trail leads is found.
-/

namespace Enclave

namespace Trail

def length (t : Trail) : Nat := t.before.length

@[simp] theorem length_extend (t : Trail) (v : Nat) : (t.extend v).length = t.length + 1 := rfl

theorem nodes_extend (t : Trail) (v : Nat) : (t.extend v).nodes = t.nodes ++ [v] := by
  simp [nodes, extend]

theorem length_nodes (t : Trail) : t.nodes.length = t.length + 1 := by
  simp [nodes, length]

theorem getLast?_nodes (t : Trail) : t.nodes.getLast? = some t.last := by
  simp [nodes]

end Trail

namespace Search

variable {succ : Nat → List Nat} {count depth : Nat} {starts seen : List Nat} {layer : List Trail}
  {t : Trail}

/-- The trail leads from one of the starting nodes, step by step. -/
inductive Follows (succ : Nat → List Nat) (starts : List Nat) : Trail → Prop
  | root {s : Nat} : s ∈ starts → Follows succ starts ⟨s, []⟩
  | extend {t : Trail} {v : Nat} : Follows succ starts t → Leads succ t.last v →
      Follows succ starts (t.extend v)

namespace Follows

theorem reaches (h : Follows succ starts t) :
    ∃ s ∈ starts, Relation.ReflTransGen (Leads succ) s t.last := by
  induction h with
  | root hs => exact ⟨_, hs, .refl⟩
  | extend _ hlead ih =>
    obtain ⟨s, hs, hreach⟩ := ih
    exact ⟨s, hs, hreach.tail hlead⟩

theorem head? (h : Follows succ starts t) : ∃ s ∈ starts, t.nodes.head? = some s := by
  induction h with
  | @root s hs => exact ⟨s, hs, rfl⟩
  | extend _ _ ih =>
    obtain ⟨s, hs, hhead⟩ := ih
    refine ⟨s, hs, ?_⟩
    rw [Trail.nodes_extend, List.head?_append, hhead, Option.some_or]

theorem isChain (h : Follows succ starts t) : t.nodes.IsChain (Leads succ) := by
  induction h with
  | root _ => exact .singleton _
  | @extend t v _ hlead ih =>
    rw [Trail.nodes_extend]
    refine ih.append (.singleton v) ?_
    intro u hu w hw
    rw [Trail.getLast?_nodes] at hu
    cases hu
    cases hw
    exact hlead

end Follows

/-- The trail is followed, and no other to the same node is shorter. -/
structure Shortest (succ : Nat → List Nat) (starts : List Nat) (t : Trail) : Prop where
  follows : Follows succ starts t
  least : ∀ t', Follows succ starts t' → t'.last = t.last → t.length ≤ t'.length

/--
A trail of the next layer is one of this layer with a step to a node that was not met. No trail
before it in the layer leads there.
-/
theorem exists_of_mem_nextLayer (h : t ∈ nextLayer succ seen layer) :
    ∃ before u after v, layer = before ++ u :: after ∧ Leads succ u.last v ∧ v ∉ seen ∧
      t = u.extend v ∧ ∀ w ∈ before, ¬ Leads succ w.last v := by
  induction layer generalizing seen with
  | nil => cases h
  | cons u us ih =>
    rcases List.mem_append.1 h with h | h
    · obtain ⟨v, hv, rfl⟩ := List.mem_map.1 h
      obtain ⟨hlead, hnew⟩ := mem_fresh.1 hv
      exact ⟨[], u, us, v, rfl, hlead, hnew, rfl, fun w hw => absurd hw List.not_mem_nil⟩
    · obtain ⟨before, u', after, v, rfl, hlead, hnew, rfl, hfirst⟩ := ih h
      rw [List.mem_append, mem_fresh, not_or, not_and_not_right] at hnew
      refine ⟨u :: before, u', after, v, rfl, hlead, hnew.2, rfl, fun w hw => ?_⟩
      rcases List.mem_cons.1 hw with rfl | hw
      · exact fun hwv => hnew.2 (hnew.1 hwv)
      · exact hfirst w hw

/--
Where a search stands after the layers up to a depth: the trails of the last one have its length,
and every trail of at most that length ends at a node that was met, a shorter one before that layer.
-/
structure AtDepth (succ : Nat → List Nat) (starts : List Nat) (depth : Nat) (seen : List Nat)
    (layer : List Trail) : Prop where
  follows : ∀ t ∈ layer, Follows succ starts t ∧ t.length = depth
  met : ∀ t, Follows succ starts t → t.length ≤ depth → t.last ∈ seen
  earlier : ∀ t, Follows succ starts t → t.length < depth → t.last ∉ ends layer

namespace AtDepth

theorem roots : AtDepth succ starts 0 (fresh [] starts) ((fresh [] starts).map (⟨·, []⟩)) where
  follows t ht := by
    obtain ⟨s, hs, rfl⟩ := List.mem_map.1 ht
    exact ⟨.root (mem_fresh_nil.1 hs), rfl⟩
  met t ht hle := by
    cases ht with
    | root hs => exact mem_fresh_nil.2 hs
    | extend _ _ =>
      rw [Trail.length_extend] at hle
      omega
  earlier t _ hlt := by omega

theorem next (h : AtDepth succ starts depth seen layer) (hf : Frontier succ seen layer) :
    AtDepth succ starts (depth + 1) (ends (nextLayer succ seen layer) ++ seen)
      (nextLayer succ seen layer) where
  follows t ht := by
    obtain ⟨before, u, after, v, rfl, hlead, -, rfl, -⟩ := exists_of_mem_nextLayer ht
    obtain ⟨hfollows, hlength⟩ := h.follows u (by simp)
    exact ⟨hfollows.extend hlead, by rw [Trail.length_extend, hlength]⟩
  met t ht hle := by
    cases ht with
    | root hs => exact List.mem_append_right _ (h.met _ (.root hs) (Nat.zero_le _))
    | extend ht hlead =>
      rw [Trail.length_extend] at hle
      exact hf.leads (h.met _ ht (by omega)) hlead
  earlier t ht hlt hmem :=
    (mem_ends_nextLayer.1 hmem).2 (h.met t ht (by omega))

theorem shortest (h : AtDepth succ starts depth seen layer) :
    ∀ t ∈ layer, Shortest succ starts t := by
  intro t ht
  obtain ⟨hfollows, hlength⟩ := h.follows t ht
  refine ⟨hfollows, fun t' ht' hlast => ?_⟩
  by_contra hlt
  have hends : t'.last ∈ ends layer := hlast ▸ List.mem_map_of_mem ht
  exact h.earlier t' ht' (by omega) hends

end AtDepth

theorem shortest_of_mem_trails (count : Nat) :
    ∀ t ∈ trails count succ starts, Shortest succ starts t := by
  refine forall_mem_layers
    (I := fun seen layer => ∃ depth, AtDepth succ starts depth seen layer ∧
      Frontier succ seen layer) ?_ ?_ count ⟨0, .roots, .roots⟩
  · rintro seen layer ⟨depth, hdepth, hfrontier⟩
    exact ⟨depth + 1, hdepth.next hfrontier, hfrontier.next⟩
  · rintro seen layer ⟨depth, hdepth, -⟩
    exact hdepth.shortest

theorem shortest_of_trailTo? {goal : Nat} (h : trailTo? count succ starts goal = some t) :
    Shortest succ starts t ∧ t.last = goal := by
  unfold trailTo? at h
  have hlast := List.find?_some h
  exact ⟨shortest_of_mem_trails count t (List.mem_of_find?_eq_some h), by simpa using hlast⟩

/-- A node to which a trail leads is found, by a trail that is no longer. -/
theorem exists_trailTo? (hsucc : ∀ u v, Leads succ u v → v < count) (h : Follows succ starts t) :
    ∃ t', trailTo? count succ starts t.last = some t' ∧ Shortest succ starts t' ∧
      t'.last = t.last ∧ t'.length ≤ t.length := by
  have hmem : t.last ∈ reached count succ starts := (mem_reached hsucc).2 h.reaches
  obtain ⟨u, hu, hlast⟩ := List.mem_map.1 hmem
  have hfound : (trailTo? count succ starts t.last).isSome := by
    rw [trailTo?, List.find?_isSome]
    exact ⟨u, hu, by simp [hlast]⟩
  obtain ⟨t', ht'⟩ := Option.isSome_iff_exists.1 hfound
  obtain ⟨hshortest, hlast'⟩ := shortest_of_trailTo? ht'
  exact ⟨t', ht', hshortest, hlast', hshortest.least t h hlast'.symm⟩

end Search

end Enclave
