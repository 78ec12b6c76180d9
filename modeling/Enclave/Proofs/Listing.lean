import Enclave.Proofs.Bounds
import Enclave.Proofs.Representation
import Enclave.Proofs.Termination

/-!
# Enclave.Proofs.Listing

What a partition lists. Every function and every global has one entry, in the order of names, at the
join of the levels that reached it or, if none did, at the default level; the names without a level
of their own are listed once more. Since no two nodes share a name, a name that is looked up among
the entries is found at the node that it belongs to.

* `topology_lists`: the partition of a graph without conflicts is this list, and there is one unless
  an element is declared on the last line of all.
-/

namespace Enclave

open Std

namespace Graph

variable {g : Graph}

theorem Distinct.nodup_names (hg : g.Distinct) : (g.nodes.toList.map (·.name)).Nodup := by
  rw [List.nodup_iff_getElem?_ne_getElem?]
  intro i j hij hj heq
  rw [List.length_map, Array.length_toList] at hj
  have hm := Array.getElem?_eq_getElem (Nat.lt_trans hij hj)
  have hn := Array.getElem?_eq_getElem hj
  rw [List.getElem?_map, List.getElem?_map, Array.getElem?_toList, Array.getElem?_toList, hm, hn,
    Option.map_some, Option.map_some, Option.some_inj] at heq
  exact Nat.ne_of_lt hij (hg i j _ _ hm hn heq)

def namesOf (g : Graph) (kind : NodeKind) : List String :=
  (g.nodes.toList.filter (·.kind == kind)).map (·.name)

end Graph

/-- What a partition of the graph lists, for a solution in which its nodes have got their levels. -/
structure Topology.Lists (t : Topology) (g : Graph) (l : Lattice) (spec : LatticeSpec)
    (s : Solution) : Prop where
  functions : (t.functions.map (·.name)).Perm (g.namesOf .function)
  globals : (t.globals.map (·.name)).Perm (g.namesOf .global)
  ascending : ∀ entries ∈ [t.functions, t.globals],
    (entries.map (·.name)).Pairwise (compare · · = .lt)
  /-- An element that levels reached is at their join. -/
  reached : ∀ (v : NodeId) (n : Node), g.nodes[v]? = some n → n.kind ≠ .callSite → s.Reached v →
    ∃ a, l.IsBound spec (s.factsOf v).levels.keys a ∧ t.levelOf? n.name = some (l.name a)
  unreached : ∀ (v : NodeId) (n : Node), g.nodes[v]? = some n → n.kind ≠ .callSite →
    ¬ s.Reached v → ∃ a, l.default = some a ∧ t.levelOf? n.name = some (l.name a)
  sites : ∀ (v : NodeId) (n : Node), g.nodes[v]? = some n → n.kind = .callSite →
    t.levelOf? n.name = none ∧ n.name ∉ t.defaulted
  defaulted : t.defaulted.Pairwise (compare · · = .lt) ∧ ∀ name, name ∈ t.defaulted ↔
    ∃ (v : NodeId) (n : Node), g.nodes[v]? = some n ∧ n.name = name ∧ n.kind ≠ .callSite ∧
      ¬ s.Reached v

namespace Assignment

variable {g : Graph} {l : Lattice} {s : Solution} {A : Assignment} {kind : NodeKind}
  {placed : List Placement}

theorem map_fst_entries (hA : A.levels.length = g.nodes.size) :
    ((g.nodes.toList.zip A.levels).filter (·.1.kind == kind)).map (·.1.name) =
      g.namesOf kind := by
  have hfst : (g.nodes.toList.zip A.levels).map (·.1) = g.nodes.toList :=
    List.map_fst_zip (by rw [Array.length_toList, hA])
  rw [Graph.namesOf, ← hfst, List.filter_map, List.map_map, hfst]
  rfl

theorem perm_names_placements (hA : A.levels.length = g.nodes.size)
    (h : A.placements g l kind = .ok placed) :
    (placed.map (·.name)).Perm (g.namesOf kind) := by
  obtain ⟨unsorted, hunsorted, h⟩ := bind_eq_ok.1 h
  cases h
  rw [← map_fst_entries hA,
    ← map_eq_of_mapM (fun _ _ hplaced => (name_level_of_placement hplaced).1) hunsorted]
  exact (sortOn_perm _ unsorted).map _

theorem ascending_placements (hg : g.Distinct) (hA : A.levels.length = g.nodes.size)
    (h : A.placements g l kind = .ok placed) :
    (placed.map (·.name)).Pairwise (compare · · = .lt) := by
  have hperm := perm_names_placements hA h
  obtain ⟨unsorted, -, h⟩ := bind_eq_ok.1 h
  cases h
  refine pairwise_lt_sortOn _ ?_
  have hnodup : (g.namesOf kind).Nodup := hg.nodup_names.sublist (List.filter_sublist.map _)
  exact (((sortOn_perm _ unsorted).map _).symm.trans hperm).nodup_iff.2 hnodup

theorem nodup_names_of_nodup (hg : g.Distinct) {vs : List NodeId} (hvs : vs.Nodup) :
    ((vs.filterMap (g.nodes[·]?)).map (·.name)).Nodup := by
  rw [List.map_filterMap]
  refine hvs.filterMap fun u v name hu hv => ?_
  obtain ⟨m, hm, hname⟩ := Option.map_eq_some_iff.1 hu
  obtain ⟨n, hn, hname'⟩ := Option.map_eq_some_iff.1 hv
  exact hg u v m n hm hn (hname.trans hname'.symm)

theorem ascending_defaulted {t : Topology} {sourcePath : String} (hg : g.Distinct)
    (hA : ofSolution g l s = .ok A) (h : A.topology g l sourcePath = .ok t) :
    t.defaulted.Pairwise (compare · · = .lt) := by
  obtain ⟨levels, -, hA⟩ := bind_eq_ok.1 hA
  obtain ⟨functions, -, h⟩ := bind_eq_ok.1 h
  obtain ⟨globals, -, h⟩ := bind_eq_ok.1 h
  cases hA
  cases h
  rw [← List.map_id (sortOn id _)]
  refine pairwise_lt_sortOn id ?_
  rw [List.map_id]
  have hids : (g.nodeIds.filter fun v => (reached? s v).isNone).Nodup := List.nodup_range.filter _
  exact (nodup_names_of_nodup hg hids).sublist (List.filter_sublist.map _)

/-- Of the levels that reached a node in a consistent solution the greatest is their join. -/
theorem exists_bound {names : List String} {spec : LatticeSpec} {members : List NodeId} {v : NodeId}
    (hl : Lattice.build names spec = .ok l) (hs : Spread.Solved g l members s)
    (hcons : s.isConsistent = true) (hv : s.Reached v) :
    ∃ a, s.state v = .tentative a ∧ l.IsBound spec (s.factsOf v).levels.keys a := by
  obtain ⟨a, hstate, ha, hgreatest⟩ := hs.exists_greatest hcons hv
  have hbelow : ∀ b, s.Holds v b → l.Below spec b a := fun b hb =>
    (Lattice.below_iff hl).2 (hgreatest b hb)
  have hkeys : ∀ b, b ∈ (s.factsOf v).levels.keys ↔ s.Holds v b := fun b =>
    SortedMap.mem_keys.trans NodeFacts.contains_levels_iff
  refine ⟨a, hstate, (hbelow a ha).1, fun b hb => hbelow b ((hkeys b).1 hb), fun u _ hu => ?_⟩
  exact hu a ((hkeys a).2 ha)

theorem lists_of_topology {names : List String} {spec : LatticeSpec} {members : List NodeId}
    {t : Topology} {sourcePath : String} (hl : Lattice.build names spec = .ok l)
    (hlevels : 0 < l.size) (hg : g.Distinct) (hs : Spread.Solved g l members s)
    (hcons : s.isConsistent = true) (hA : ofSolution g l s = .ok A)
    (ht : A.topology g l sourcePath = .ok t) : t.Lists g l spec s := by
  have hlength := length_ofSolution hA
  have hlevelOf : ∀ {v : NodeId} {n : Node} {a : Level}, g.nodes[v]? = some n →
      n.kind ≠ .callSite → A.level? v = some a → t.levelOf? n.name = some (l.name a) :=
    fun hn hkind ha => (levelOf?_topology hg ht).2 ⟨_, _, _, hn, rfl, hkind, ha, rfl⟩
  have hsites : ∀ {v : NodeId} {n : Node}, g.nodes[v]? = some n → n.kind = .callSite →
      ∀ {w : NodeId} {m : Node}, g.nodes[w]? = some m → m.name = n.name → m.kind = .callSite := by
    intro v n hn hkind w m hm hname
    cases hg w v m n hm hn hname
    cases hm.symm.trans hn
    exact hkind
  have hplaced := ht
  obtain ⟨functions, hfunctions, hplaced⟩ := bind_eq_ok.1 hplaced
  obtain ⟨globals, hglobals, hplaced⟩ := bind_eq_ok.1 hplaced
  cases hplaced
  refine ⟨perm_names_placements hlength hfunctions, perm_names_placements hlength hglobals, ?_,
    fun v n hn hkind hv => ?_, fun v n hn hkind hv => ?_, fun v n hn hkind => ⟨?_, ?_⟩,
    ascending_defaulted hg hA ht, fun name => ?_⟩
  · intro entries hentries
    rcases List.mem_pair.1 hentries with rfl | rfl
    · exact ascending_placements hg hlength hfunctions
    · exact ascending_placements hg hlength hglobals
  · obtain ⟨a, hstate, hbound⟩ := exists_bound hl hs hcons hv
    exact ⟨a, hbound, hlevelOf hn hkind (level?_of_state hA (Graph.lt_size hn) hstate)⟩
  · obtain ⟨a, hdefault, -⟩ := (Lattice.build_lawful hl).default hlevels
    have hlevel := level?_of_unreached hs hA (Graph.lt_size hn) hv
    exact ⟨a, hdefault, hlevelOf hn hkind (hlevel.trans hdefault)⟩
  · rw [Option.eq_none_iff_forall_ne_some]
    intro level hlevel
    obtain ⟨w, m, a, hm, hname, hplace, -⟩ := (levelOf?_topology hg ht).1 hlevel
    exact hplace (hsites hn hkind hm hname)
  · intro hmem
    obtain ⟨w, -, m, hm, hname, hplace⟩ := (mem_defaulted_topology ht).1 hmem
    exact hplace (hsites hn hkind hm hname)
  · rw [mem_defaulted_topology ht]
    simp only [mem_defaulted hs hcons hA]
    constructor
    · rintro ⟨v, ⟨-, hv⟩, n, hn, hname, hkind⟩
      exact ⟨v, n, hn, hname, hkind, hv⟩
    · rintro ⟨v, n, hn, hname, hkind, hv⟩
      exact ⟨v, ⟨Graph.lt_size hn, hv⟩, n, hn, hname, hkind⟩

end Assignment

namespace Graph

variable {g : Graph} {l : Lattice} {s : Solution}

/--
A graph without conflicts has an assignment, which is listed element by element: every function and
every global once, at the join of the levels that reached it or at the default, and no call site.
Only the number of a line that is too large for a word can keep it from being listed.
-/
theorem topology_lists {names : List String} {spec : LatticeSpec} {settings : SolverSettings}
    (hl : Lattice.build names spec = .ok l) (hlevels : 0 < l.size) (hg : g.Built)
    (hover : g.Over l) (hs : g.solve l settings = .ok s) (hcons : s.isConsistent = true)
    (sourcePath : String) : ∃ A, Assignment.ofSolution g l s = .ok A ∧
      ((∃ t, A.topology g l sourcePath = .ok t) ↔ ¬ g.Unlisted) ∧
      ∀ t, A.topology g l sourcePath = .ok t → t.Lists g l spec s := by
  have hlawful := Lattice.build_lawful hl
  have hsolved := solved_of_solve hlawful hover hg.closed hs
  obtain ⟨A, hA⟩ := Assignment.ofSolution_isOk (s := s) hlawful fun _ : 0 < g.nodes.size => hlevels
  refine ⟨A, hA, ?_, fun t => Assignment.lists_of_topology hl hlevels hg.distinct hsolved hcons hA⟩
  rw [Assignment.topology_isOk_iff (Assignment.length_ofSolution hA), Unlisted]
  push Not
  rfl

/-- Two levels that meet at a global, a call through its site, and a function out of reach. -/
def blending : Program where
  labels := {
    functions := .ofList [
      ("main", { level := some "orange" }),
      ("sensor", { level := some "purple" })]
    globals := .ofList [("state", {})] }
  ir := {
    functions := [⟨"sensor", some (.line "a.c" 3 none)⟩, ⟨"idle", none⟩]
    calls := [⟨"sensor", "log", some (.line "a.c" 7 none)⟩]
    defUse := [⟨"main", "state", none⟩, ⟨"sensor", "state", none⟩] }

theorem topology_lists_blending : ∃ (names : List String) (l : Lattice) (g : Graph) (s : Solution)
    (A : Assignment) (t : Topology),
    Lattice.build names (Lattice.diamond []) = .ok l ∧ 0 < l.size ∧ g.Built ∧ g.Over l ∧
    g.solve l {} = .ok s ∧ s.isConsistent = true ∧ Assignment.ofSolution g l s = .ok A ∧
    A.topology g l "a.c" = .ok t ∧ t.Lists g l (Lattice.diamond []) s := by
  have hrun : (Analysis.prepare { lattice := Lattice.diamond [] } blending).toOption.any (fun r =>
      r.toOption.any fun p => (p.graph.solve p.lattice {}).toOption.any fun s => decide (
        s.isConsistent = true ∧ 0 < p.lattice.size ∧ ¬ p.graph.Unlisted)) = true := by
    decide +kernel
  obtain ⟨p, s, hp, hs, hcons, hlevels, hlisted⟩ := Analysis.exists_solution_of_any hrun
  have hvalid := Analysis.valid_of_prepare hp
  obtain ⟨hlattice, -, hgraph, -⟩ := Analysis.prepare_eq_ok hp
  obtain ⟨A, hA, hexists, hlists⟩ :=
    topology_lists hlattice hlevels (.ofProgram hgraph) hvalid.labels hs hcons "a.c"
  obtain ⟨t, ht⟩ := hexists.2 hlisted
  exact ⟨_, p.lattice, p.graph, s, A, t, hlattice, hlevels, .ofProgram hgraph, hvalid.labels, hs,
    hcons, hA, ht, hlists t ht⟩

/-- A function on the last line of all has its level, but no entry in which it could be listed. -/
theorem no_listing_on_last_line : ∃ (names : List String) (l : Lattice) (g : Graph) (s : Solution)
    (A : Assignment), Lattice.build names {} = .ok l ∧ 0 < l.size ∧ g.Built ∧ g.Over l ∧
    g.solve l {} = .ok s ∧ s.isConsistent = true ∧ Assignment.ofSolution g l s = .ok A ∧
    A.topology g l "" = .error .add := by
  have hrun : (Analysis.prepare {} Analysis.lastLine).toOption.any (fun r => r.toOption.any fun p =>
      (p.graph.solve p.lattice {}).toOption.any fun s => decide (
        s.isConsistent = true ∧ 0 < p.lattice.size ∧
          (Assignment.ofSolution p.graph p.lattice s).toOption.any fun A =>
            decide (A.topology p.graph p.lattice "" = .error .add))) = true := by
    decide +kernel
  obtain ⟨p, s, hp, hs, hcons, hlevels, hfails⟩ := Analysis.exists_solution_of_any hrun
  obtain ⟨A, hA, hfails⟩ := exists_ok_of_any hfails
  have hvalid := Analysis.valid_of_prepare hp
  obtain ⟨hlattice, -, hgraph, -⟩ := Analysis.prepare_eq_ok hp
  exact ⟨_, p.lattice, p.graph, s, A, hlattice, hlevels, .ofProgram hgraph, hvalid.labels, hs,
    hcons, hA, of_decide_eq_true hfails⟩

end Graph

end Enclave
