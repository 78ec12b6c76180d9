import Enclave.Partition.Explanation
import Enclave.Proofs.Evidence
import Enclave.Proofs.ShortestPaths

/-!
# Enclave.Proofs.Tracing

The sides of a witness can be traced. A level that made a walk made one along which a search finds
its way, because the search follows exactly the edges that carried the level.

* `witnesses_traced`: the path by which a conflict is explained is one that the level took from its
  seed to the node where the levels meet, and no longer than the distance that the witness names.
-/

namespace Enclave

attribute [local instance] lexOrd

namespace Graph

variable {g : Graph} {carried : SortedSet (EdgeId × Level)} {a : Level} {u v : NodeId} {n : Nat}
  {path : List NodeId}

/-- An edge from one node to another carried the level. -/
def Crossed (g : Graph) (carried : SortedSet (EdgeId × Level)) (a : Level) (u v : NodeId) : Prop :=
  ∃ i e, g.edges[i]? = some e ∧ e.source = u ∧ e.target = v ∧ (i, a) ∈ carried.toList

/-- A path from one node to another, both included, along edges that carried the level. -/
structure Route (g : Graph) (carried : SortedSet (EdgeId × Level)) (a : Level) (u v : NodeId)
    (path : List NodeId) : Prop where
  first : path.head? = some u
  last : path.getLast? = some v
  crossed : path.IsChain (g.Crossed carried a)

/-- The search that follows the edges which carried a level takes the steps that the level took. -/
theorem leads_carried : Search.Leads (g.stepsFrom fun e => carried.contains (e.2, a)) u v ↔
    g.Crossed carried a u v := by
  simp only [leads_stepsFrom, Steps, Crossed, SortedSet.contains_iff]

theorem Travelled.exists_follows (h : g.Travelled carried a u n v) :
    ∃ t, Search.Follows (g.stepsFrom fun e => carried.contains (e.2, a)) [u] t ∧ t.last = v ∧
      t.length = n := by
  induction h with
  | stay => exact ⟨⟨u, []⟩, .root List.mem_cons_self, rfl, rfl⟩
  | @cross n v e i _ hget hsource hcar ih =>
    obtain ⟨t, ht, hlast, hlength⟩ := ih
    have hlead : Search.Leads (g.stepsFrom fun e => carried.contains (e.2, a)) t.last e.target :=
      leads_carried.2 ⟨i, e, hget, by rw [hsource, hlast], rfl, hcar⟩
    exact ⟨t.extend e.target, ht.extend hlead, rfl, by rw [Trail.length_extend, hlength]⟩

theorem route_of_follows {t : Trail}
    (h : Search.Follows (g.stepsFrom fun e => carried.contains (e.2, a)) [u] t) :
    g.Route carried a u t.last t.nodes where
  first := by
    obtain ⟨s, hs, hhead⟩ := h.head?
    rwa [List.mem_singleton.1 hs] at hhead
  last := t.getLast?_nodes
  crossed := h.isChain.imp fun _ _ => leads_carried.1

/-- Where a level made a walk, the search finds a path, and none longer than the walk. -/
theorem exists_shortestPath? (hcl : g.Closed) (h : g.Travelled carried a u n v) :
    ∃ path, g.shortestPath? [u] v (fun e => carried.contains (e.2, a)) = some path ∧
      g.Route carried a u v path ∧ path.length ≤ n + 1 := by
  obtain ⟨t, hfollows, hlast, hlength⟩ := h.exists_follows
  obtain ⟨t', hfound, hshortest, hlast', hle⟩ := Search.exists_trailTo? hcl.lt_of_leads hfollows
  rw [hlast] at hfound hlast'
  refine ⟨t'.nodes, ?_, hlast' ▸ route_of_follows hshortest.follows, ?_⟩
  · have hsingle : (SortedSet.ofList [u]).toList = [u] := rfl
    rw [shortestPath?, hsingle, hfound, Option.map_some]
  · rw [Trail.length_nodes]
    omega

/-- What the explanation of a side of a witness is: a path that the search found. -/
structure Traced (g : Graph) (s : Solution) (side : Side) (meeting : NodeId) (path : List NodeId) :
    Prop where
  found : g.shortestPath? [side.seed] meeting (fun e => s.carried.contains (e.2, side.level)) =
    some path
  traced : Explanation.tracePath g s side meeting = path
  route : g.Route s.carried side.level side.seed meeting path
  short : path.length ≤ side.distance + 1

theorem exists_traced {s : Solution} {side : Side} {meeting : NodeId} (hcl : g.Closed)
    (h : g.Travelled s.carried side.level side.seed side.distance meeting) :
    ∃ path, g.Traced s side meeting path := by
  obtain ⟨path, hfound, hroute, hshort⟩ := exists_shortestPath? hcl h
  refine ⟨path, hfound, ?_, hroute, hshort⟩
  rw [Explanation.tracePath, hfound, Option.getD_some]

/--
Both sides of every witness of a solution can be traced, whatever the lattice, the graph and the
cap.
-/
theorem witnesses_traced {names : List String} {spec : LatticeSpec} {l : Lattice}
    {settings : SolverSettings} {s : Solution} (hl : Lattice.build names spec = .ok l)
    (hcl : g.Closed) (hg : g.Over l) (hs : g.solve l settings = .ok s) :
    ∀ w ∈ s.witnesses, ∀ side ∈ [w.incoming, w.existing],
      ∃ path, g.Traced s side w.meeting path := by
  intro w hw side hside
  have hgenuine := (evident_of_solve (Lattice.build_lawful hl) hg hcl hs).1 w hw
  exact exists_traced hcl (hgenuine.travelled side hside)

theorem witnesses_traced_contested : ∃ (names : List String) (l : Lattice) (g : Graph)
    (s : Solution), Lattice.build names contestedLevels = .ok l ∧ g.Closed ∧ g.Over l ∧
    g.solve l {} = .ok s ∧
    (∃ w ∈ s.witnesses, w.incoming.distance = 2 ∧
      Explanation.tracePath g s w.incoming w.meeting = [2, 5, 6]) ∧
    ∀ w ∈ s.witnesses, ∀ side ∈ [w.incoming, w.existing],
      ∃ path, g.Traced s side w.meeting path := by
  have hrun : (Analysis.prepare { lattice := contestedLevels } contested).toOption.any (fun r =>
      r.toOption.any fun p => (p.graph.solve p.lattice {}).toOption.any fun s => decide (
        ∃ w ∈ s.witnesses, w.incoming.distance = 2 ∧
          Explanation.tracePath p.graph s w.incoming w.meeting = [2, 5, 6])) = true := by
    decide +kernel
  obtain ⟨p, s, hp, hs, hfar⟩ := Analysis.exists_solution_of_any hrun
  have hvalid := Analysis.valid_of_prepare hp
  have hlattice := (Analysis.prepare_eq_ok hp).1
  exact ⟨_, p.lattice, p.graph, s, hlattice, hvalid.closed, hvalid.labels, hs,
    hfar, witnesses_traced hlattice hvalid.closed hvalid.labels hs⟩

end Graph

end Enclave
