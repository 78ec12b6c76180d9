import Enclave.Proofs.Marking
import Enclave.Proofs.Representation

/-!
# Enclave.Proofs.Connectivity

The components of a graph that was built, said without the search that finds them: nodes are
together exactly when a path joins them that takes edges in either direction. One array of marks and
a stack over the stored indexes find the same components in the same order.
-/

namespace Enclave

namespace Graph

variable {g : Graph} {u v : NodeId} {p : List NodeId}

/-- The lists are the weakly connected components of a graph, in the order of their least nodes. -/
structure WeakComponents (g : Graph) (parts : List (List NodeId)) : Prop where
  /-- Every node stands in one list, once, and nothing else does. -/
  once : parts.flatten.Perm g.nodeIds
  together : ∀ u < g.nodes.size, ∀ v < g.nodes.size,
    (∃ p ∈ parts, u ∈ p ∧ v ∈ p) ↔ Relation.ReflTransGen g.Adjacent u v
  ascending : ∀ p ∈ parts, p.Pairwise (· < ·)
  ordered : parts.Pairwise fun p q => ∃ a b, p.min? = some a ∧ q.min? = some b ∧ a < b
  /-- No edge leads out of a list or into one. -/
  closed : ∀ p ∈ parts, ∀ e ∈ g.edges.toList, e.source ∈ p ↔ e.target ∈ p

theorem joined_of_mem_components (hg : g.Closed) (hp : p ∈ g.components) (hu : u ∈ p)
    (hv : v ∈ p) : Relation.ReflTransGen g.Adjacent u v := by
  obtain ⟨w, -, rfl, -⟩ := (parts_components hg).whole p hp
  have hwu := (mem_component hg).1 hu
  have hwv := (mem_component hg).1 hv
  exact (joined_symm hwu).trans hwv

theorem mem_of_joined (hg : g.Closed) (hp : p ∈ g.components) (hu : u ∈ p)
    (h : Relation.ReflTransGen g.Adjacent u v) : v ∈ p := by
  induction h with
  | refl => exact hu
  | tail _ hstep ih =>
    obtain ⟨e, he, ⟨rfl, rfl⟩ | ⟨rfl, rfl⟩⟩ := hstep
    · exact (edge_within_component hg hp he).1 ih
    · exact (edge_within_component hg hp he).2 ih

theorem flatten_components_perm (hg : g.Closed) : g.components.flatten.Perm g.nodeIds := by
  refine (List.perm_ext_iff_of_nodup (nodup_flatten_components hg) List.nodup_range).2 fun v => ?_
  rw [mem_flatten_components hg, List.mem_range]

theorem weakComponents_components (hg : g.Closed) : g.WeakComponents g.components where
  once := flatten_components_perm hg
  together u hu v _ := by
    constructor
    · rintro ⟨p, hp, hup, hvp⟩
      exact joined_of_mem_components hg hp hup hvp
    · intro h
      obtain ⟨p, hp, hup⟩ := exists_component hg hu
      exact ⟨p, hp, hup, mem_of_joined hg hp hup h⟩
  ascending _ := ascending_of_mem_components hg
  ordered := (parts_components hg).ordered
  closed _ hp _ := edge_within_component hg hp

/-- However many turns a search from a node may take, beyond one for each node it has ended. -/
theorem components_weak (hg : g.Built) : g.WeakComponents g.components ∧
    (∀ n, g.nodes.size ≤ n → (Marks.run g.bothWays g.nodes.size n).parts = g.components) ∧
    g.Kept ∧ ∀ a : Arena, a.view = g → a.bothWays = g.bothWays :=
  ⟨weakComponents_components hg.closed, fun _ hn => parts_run hg.closed hn, hg.kept,
    fun a ha => ha ▸ a.bothWays_eq⟩

/-- The two components take turns with their nodes, and each is held together from behind. -/
def interleavedBy : List Operation :=
  [.connect "a" "c" .data none, .addGlobal "x", .connect "b" "c" .call none,
    .connect "y" "x" .control none]

theorem components_weak_interleaved : ∃ g : Graph, g.Built ∧
    g.components = [[0, 1, 3], [2, 4]] ∧ g.WeakComponents g.components ∧
    (Marks.run (Arena.replay interleavedBy).bothWays 5 5).parts = g.components := by
  obtain ⟨hweak, hmarks, -, harena⟩ := components_weak (.replayed interleavedBy)
  refine ⟨(History.replay interleavedBy).graph, .replayed _, by decide +kernel, hweak, ?_⟩
  have hsize : (History.replay interleavedBy).graph.nodes.size = 5 := by decide +kernel
  rw [harena _ (Arena.view_replay interleavedBy), ← hsize]
  exact hmarks _ (Nat.le_refl _)

end Graph

end Enclave
