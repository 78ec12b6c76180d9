import Enclave.Proofs.Placing
import Enclave.Proofs.Reporting
import Enclave.Proofs.Representation
import Enclave.Proofs.Tracing

/-!
# Enclave.Proofs.Explaining

What the conflicts of a solution say. Each witness is explained by one conflict. Its sources are the
places of the nodes on the two paths to where the levels meet (`Explanation.Outlines`), and the
conflicts are listed by kind and by the place of their first source (`Conflict.Listing`).

* `witnesses_explained`: every solution has its witnesses explained and listed in this way.
* `sources_given`: a source is a place that the program gives, or the file of the program alone. A
  place that is given on line zero is reported on line one.
* `line_zero_reported_as_one`: such a place, which the program does not give.
-/

namespace Enclave

attribute [local instance] lexOrd

namespace Location

/-- The place has one of the shapes in which places are written. -/
def Shaped (place : Location) : Prop := ∃ source, place = .ofSource source

theorem ne_line_zero_of_toSource {place : Location} {source : Source}
    (h : place.toSource = .ok source) (file : String) (character : Option UInt32) :
    source ≠ .line file 0 character := by
  have hpos : ∀ number, place.lineNumber = .ok number → UInt32.ofNat number ≠ 0 := by
    intro number hnumber hzero
    rw [lineNumber, addBelow] at hnumber
    split at hnumber
    · rename_i hlt
      cases hnumber
      have hmod := congrArg UInt32.toNat hzero
      rw [UInt32.toNat_ofNat_of_lt' hlt] at hmod
      cases hmod
    · cases hnumber
  rintro rfl
  rw [toSource] at h
  cases hprecision : place.precision with
  | span =>
    rw [hprecision] at h
    cases h
  | line =>
    rw [hprecision] at h
    obtain ⟨number, hnumber, h⟩ := bind_eq_ok.1 h
    exact hpos number hnumber (Source.line.inj (Except.ok.inj h)).2.1
  | point =>
    rw [hprecision] at h
    obtain ⟨number, hnumber, h⟩ := bind_eq_ok.1 h
    exact hpos number hnumber (Source.line.inj (Except.ok.inj h)).2.1

end Location

namespace Graph

variable {g : Graph} {v : NodeId} {source : Source}

/-- The place of a node, if it is known. -/
def place? (g : Graph) (v : NodeId) : Option Location := g.nodes[v]?.bind (·.location)

/-- The place of the node is known, and this is how it is written. -/
def IsAt (g : Graph) (v : NodeId) (source : Source) : Prop :=
  ∃ place, g.place? v = some place ∧ place.toSource = .ok source

theorem PlacedIn.isAt {S : Location → Prop} (hg : g.PlacedIn S) (h : g.IsAt v source) :
    ∃ place, S place ∧ place.toSource = .ok source := by
  obtain ⟨place, hplace, hsource⟩ := h
  obtain ⟨n, hn, hlocation⟩ := Option.bind_eq_some_iff.1 hplace
  exact ⟨place, hg v n hn place hlocation, hsource⟩

end Graph

namespace Explanation

variable {g : Graph} {l : Lattice} {s : Solution} {sourcePath : String} {meeting : NodeId}
  {incoming existing nodes : List NodeId} {written : List Source}

/--
The sources of two paths that end at one node: the places of their nodes, from there outward along
the one and then along the other, each node where it is met first. If no place is known, the file of
the program stands for them.
-/
structure Outlines (g : Graph) (sourcePath : String) (incoming existing : List NodeId)
    (written : List Source) : Prop where
  outward : ∃ nodes : List NodeId,
    (∀ v, v ∈ nodes ↔ v ∈ incoming ++ existing ∧ (g.place? v).isSome) ∧
    (nodes.Pairwise fun u v => (incoming.reverse ++ existing.reverse).idxOf u <
      (incoming.reverse ++ existing.reverse).idxOf v) ∧
    (nodes ≠ [] → List.Forall₂ g.IsAt nodes written)
  nonempty : written ≠ []
  fallback : written = [.line sourcePath 0 none] ↔ ∀ v ∈ incoming ++ existing, g.place? v = none

theorem outward_eq (hin : incoming.getLast? = some meeting)
    (hex : existing.getLast? = some meeting) :
    outward meeting incoming existing = (incoming.reverse ++ existing.reverse).eraseDups := by
  have hhead : ∀ {path : List NodeId}, path.getLast? = some meeting →
      path.reverse = meeting :: path.reverse.drop 1 := by
    intro path h
    rw [← List.head?_reverse] at h
    rw [List.drop_one]
    exact (List.cons_head?_tail h).symm
  rw [outward, hhead hin, hhead hex, List.drop_succ_cons, List.drop_zero, List.drop_succ_cons,
    List.drop_zero, List.cons_append, List.eraseDups_cons, List.eraseDups_cons,
    List.filter_append, List.filter_append, List.filter_cons_of_neg (by simp)]

theorem forall₂_isAt {found : List Source}
    (h : (nodes.filterMap g.place?).mapM (·.toSource) = .ok found) :
    List.Forall₂ g.IsAt (nodes.filter fun v => (g.place? v).isSome) found := by
  induction nodes generalizing found with
  | nil =>
    cases h
    exact .nil
  | cons v nodes ih =>
    cases hplace : g.place? v with
    | none =>
      rw [List.filterMap_cons_none hplace] at h
      rw [List.filter_cons_of_neg (by simp [hplace])]
      exact ih h
    | some place =>
      rw [List.filterMap_cons_some hplace, List.mapM_cons] at h
      obtain ⟨source, hsource, h⟩ := bind_eq_ok.1 h
      obtain ⟨rest, hrest, h⟩ := bind_eq_ok.1 h
      cases h
      rw [List.filter_cons_of_pos (by simp [hplace])]
      exact .cons ⟨place, hplace, hsource⟩ (ih hrest)

theorem sources_eq_ok (h : sources g sourcePath nodes = .ok written) :
    (written = [.line sourcePath 0 none] ∧ ∀ v ∈ nodes, g.place? v = none) ∨
      (written ≠ [] ∧ List.Forall₂ g.IsAt (nodes.filter fun v => (g.place? v).isSome) written) := by
  obtain ⟨found, hfound, h⟩ := bind_eq_ok.1 h
  have hat := forall₂_isAt hfound
  cases found with
  | nil =>
    cases h
    have hnone := List.forall₂_nil_right_iff.1 hat
    refine .inl ⟨rfl, fun v hv => ?_⟩
    simpa using List.filter_eq_nil_iff.1 hnone v hv
  | cons source found =>
    cases h
    exact .inr ⟨List.cons_ne_nil _ _, hat⟩

theorem outlines_of_sources (hin : incoming.getLast? = some meeting)
    (hex : existing.getLast? = some meeting)
    (h : sources g sourcePath (outward meeting incoming existing) = .ok written) :
    Outlines g sourcePath incoming existing written := by
  rw [outward_eq hin hex] at h
  have hmem : ∀ {v}, v ∈ (incoming.reverse ++ existing.reverse).eraseDups ↔
      v ∈ incoming ++ existing := by
    intro v
    rw [List.mem_eraseDups, List.mem_append, List.mem_append, List.mem_reverse, List.mem_reverse]
  have hnodes : ∀ v, v ∈ ((incoming.reverse ++ existing.reverse).eraseDups.filter fun v =>
      (g.place? v).isSome) ↔ v ∈ incoming ++ existing ∧ (g.place? v).isSome := by
    intro v
    rw [List.mem_filter, hmem]
  have horder := (pairwise_idxOf_eraseDups (incoming.reverse ++ existing.reverse)).filter
    fun v => (g.place? v).isSome
  rcases sources_eq_ok h with ⟨rfl, hnone⟩ | ⟨hne, hat⟩
  · refine ⟨⟨_, hnodes, horder, fun hne => ?_⟩, List.cons_ne_nil _ _, ?_⟩
    · obtain ⟨v, hv⟩ := List.exists_mem_of_ne_nil _ hne
      obtain ⟨hv, hsome⟩ := (hnodes v).1 hv
      rw [hnone v (hmem.2 hv)] at hsome
      cases hsome
    · exact iff_of_true rfl fun v hv => hnone v (hmem.2 hv)
  · refine ⟨⟨_, hnodes, horder, fun _ => hat⟩, hne, ?_⟩
    -- a place is written with its number, which is never that of the file alone
    obtain ⟨source, hsource⟩ := List.exists_mem_of_ne_nil _ hne
    obtain ⟨v, hv, place, hplace, hwritten⟩ := exists_of_forall₂ hat hsource
    refine iff_of_false (fun heq => ?_) fun hnone => ?_
    · rw [heq, List.mem_singleton] at hsource
      exact Location.ne_line_zero_of_toSource hwritten sourcePath none hsource
    · rw [hnone v ((hnodes v).1 hv).1] at hplace
      cases hplace

/-- The conflict is the explanation of the witness, along the paths that its levels took. -/
structure Explains (g : Graph) (l : Lattice) (s : Solution) (sourcePath : String) (w : Witness)
    (c : Conflict) : Prop where
  explained : conflict g l s sourcePath w = .ok c
  kind : c.kind = w.kind
  sources : ∃ incoming existing, g.Traced s w.incoming w.meeting incoming ∧
    g.Traced s w.existing w.meeting existing ∧ Outlines g sourcePath incoming existing c.sources

theorem explains_of_conflict {w : Witness} {c : Conflict}
    (hin : g.Traced s w.incoming w.meeting incoming)
    (hex : g.Traced s w.existing w.meeting existing)
    (h : conflict g l s sourcePath w = .ok c) : Explains g l s sourcePath w c := by
  obtain ⟨written, hwritten, heq⟩ := bind_eq_ok.1 h
  cases heq
  refine ⟨h, rfl, incoming, existing, hin, hex, ?_⟩
  rw [hin.traced, hex.traced] at hwritten
  exact outlines_of_sources hin.route.last hex.route.last hwritten

end Explanation

theorem ConflictKind.rank_injective {k k' : ConflictKind} (h : k.rank = k'.rank) : k = k' := by
  cases k <;> cases k' <;> first | rfl | cases h

namespace Conflict

def firstPlace? (c : Conflict) : Option Location := c.sources.head?.map .ofSource

/-- The one conflict is of an earlier kind, or of the same kind and at no later place. -/
def NotAfter (a b : Conflict) : Prop :=
  a.kind.rank < b.kind.rank ∨ a.kind = b.kind ∧ ∃ p q, a.firstPlace? = some p ∧
    b.firstPlace? = some q ∧ (compare p q).isLE = true

/--
The conflicts are the explanations, listed by kind and by the place of the first source. Those that
agree in both are in the order of the explanations.
-/
structure Listing (explained conflicts : List Conflict) : Prop where
  perm : conflicts.Perm explained
  ordered : conflicts.Pairwise NotAfter
  stable : ∀ kind place,
    conflicts.filter (fun c => c.kind = kind ∧ c.firstPlace? = some place) =
      explained.filter (fun c => c.kind = kind ∧ c.firstPlace? = some place)

theorem exists_firstPlace? {c : Conflict} (h : c.sources ≠ []) : ∃ p, c.firstPlace? = some p := by
  rw [firstPlace?, List.head?_eq_some_head h]
  exact ⟨_, rfl⟩

def rank (c : Conflict) : ℕ × Option Location := (c.kind.rank, c.firstPlace?)

theorem notAfter_of_rank {a b : Conflict} (ha : a.sources ≠ []) (hb : b.sources ≠ [])
    (h : (compare a.rank b.rank).isLE = true) : a.NotAfter b := by
  obtain ⟨p, hp⟩ := exists_firstPlace? ha
  obtain ⟨q, hq⟩ := exists_firstPlace? hb
  have hcmp : compare a.rank b.rank =
      (compare a.kind.rank b.kind.rank).then (compare p q) := by
    rw [rank, rank, hp, hq]
    rfl
  rw [hcmp] at h
  cases hkind : compare a.kind.rank b.kind.rank with
  | lt => exact .inl (Nat.compare_eq_lt.1 hkind)
  | eq =>
    rw [hkind] at h
    exact .inr ⟨ConflictKind.rank_injective (Nat.compare_eq_eq.1 hkind), p, q, hp, hq, h⟩
  | gt =>
    rw [hkind] at h
    cases h

theorem listing_sortBy {explained : List Conflict} (h : ∀ c ∈ explained, c.sources ≠ []) :
    Listing explained (sortBy Explanation.comesBefore explained) := by
  have hsort : sortBy Explanation.comesBefore explained = sortOn rank explained := rfl
  have hperm := sortOn_perm rank explained
  rw [hsort]
  refine ⟨hperm, ?_, fun kind place => ?_⟩
  · refine (pairwise_sortOn rank explained).imp_of_mem fun {a b} ha hb hab => ?_
    exact notAfter_of_rank (h a (hperm.mem_iff.1 ha)) (h b (hperm.mem_iff.1 hb)) hab
  · refine filter_sortBy (fun a b ha hb => ?_) explained
    have hrank : a.rank = b.rank := by
      obtain ⟨hkind, hplace⟩ := of_decide_eq_true ha
      obtain ⟨hkind', hplace'⟩ := of_decide_eq_true hb
      rw [rank, rank, hkind, hkind', hplace, hplace']
    rw [hrank, Std.ReflOrd.compare_self]
    rfl

end Conflict

namespace Graph

variable {g : Graph} {l : Lattice} {s : Solution}

/--
The witnesses of a solution are explained one by one, by conflicts whose sources are the places
along the paths of both levels. They are listed by kind and first place, and otherwise in the order
of the witnesses.
-/
theorem witnesses_explained {names : List String} {spec : LatticeSpec} {settings : SolverSettings}
    (hl : Lattice.build names spec = .ok l) (hcl : g.Closed) (hg : g.Over l)
    (hplaced : g.PlacedIn Location.Shaped) (hs : g.solve l settings = .ok s)
    (sourcePath : String) :
    ∃ explained conflicts, explain g l s sourcePath = .ok conflicts ∧
      conflicts.length = s.witnesses.length ∧
      List.Forall₂ (Explanation.Explains g l s sourcePath) s.witnesses explained ∧
      Conflict.Listing explained conflicts := by
  have hgenuine := (evident_of_solve (Lattice.build_lawful hl) hg hcl hs).1
  obtain ⟨conflicts, hconflicts, hlength⟩ := Explanation.explain_isOk (l := l) (s := s)
    (fun v n place hn hplace => hplaced v n hn place hplace) sourcePath
  obtain ⟨explained, hmap, hsorted⟩ := bind_eq_ok.1 hconflicts
  have hexplains : ∀ w ∈ s.witnesses, ∀ c, Explanation.conflict g l s sourcePath w = .ok c →
      Explanation.Explains g l s sourcePath w c := by
    intro w hw c hc
    have htravelled := (hgenuine w hw).travelled
    obtain ⟨incoming, hin⟩ := exists_traced hcl (htravelled w.incoming (by simp))
    obtain ⟨existing, hex⟩ := exists_traced hcl (htravelled w.existing (by simp))
    exact Explanation.explains_of_conflict hin hex hc
  have hsources : ∀ c ∈ explained, c.sources ≠ [] := by
    intro c hc
    obtain ⟨w, hw, hwc⟩ := exists_of_mem_mapM hmap c hc
    obtain ⟨-, -, incoming, existing, -, -, houtlines⟩ := hexplains w hw c hwc
    exact houtlines.nonempty
  refine ⟨explained, conflicts, hconflicts, hlength, ?_, ?_⟩
  · have hpairs := (List.forall₂_and_left _ _).2 ⟨hexplains, forall₂_of_mapM hmap⟩
    exact hpairs.imp fun w c h => h.1 c h.2
  · cases hsorted
    exact Conflict.listing_sortBy hsources

end Graph

namespace Analysis

/-- Levels that meet at nodes with and without a place, and one that may not be called. -/
def charted : Program where
  labels := {
    functions := .ofList [
      ("sensor", { level := some "red", location := some (.line "s.c" 0 none) }),
      ("lamp", { level := some "green" }),
      ("pump", { level := some "white" }),
      ("store", { level := some "blue", location := some (.line "s.c" 9 (some 4)) }),
      ("guard", { taint := some { code := some ["blue"] } })] }
  ir := {
    globals := [⟨"sink", some (.range "r.c" ⟨⟨4, 0⟩, ⟨4, 8⟩⟩)⟩]
    calls := [⟨"relay", "guard", some (.line "r.c" 7 none)⟩]
    defUse := [⟨"sensor", "relay", none⟩, ⟨"lamp", "relay", none⟩, ⟨"relay", "sink", none⟩,
      ⟨"store", "sink", none⟩, ⟨"lamp", "pipe", none⟩, ⟨"pump", "pipe", none⟩] }

end Analysis

/-- The first two conflicts of `charted` agree in kind and first place, and so do the next two. -/
theorem Graph.witnesses_explained_charted : ∃ (names : List String) (l : Lattice) (g : Graph)
    (s : Solution), Lattice.build names {} = .ok l ∧ g.Closed ∧ g.Over l ∧
    g.PlacedIn Location.Shaped ∧ g.solve l {} = .ok s ∧
    (∃ conflicts, explain g l s "s.c" = .ok conflicts ∧
      conflicts.map (fun c => (c.kind, c.sources.length)) =
        [(.data, 2), (.data, 3), (.data, 1), (.data, 1), (.call, 1), (.call, 2)] ∧
      ∃ c ∈ conflicts, c.sources = [.line "s.c" 0 none]) ∧
    ∃ explained conflicts, explain g l s "s.c" = .ok conflicts ∧
      conflicts.length = s.witnesses.length ∧
      List.Forall₂ (Explanation.Explains g l s "s.c") s.witnesses explained ∧
      Conflict.Listing explained conflicts := by
  have hrun : (Analysis.prepare {} Analysis.charted).toOption.any (fun r =>
      r.toOption.any fun p => (p.graph.solve p.lattice {}).toOption.any fun s => decide (
        (explain p.graph p.lattice s "s.c").toOption.any (fun conflicts => decide (
          conflicts.map (fun c => (c.kind, c.sources.length)) =
            [(.data, 2), (.data, 3), (.data, 1), (.data, 1), (.call, 1), (.call, 2)] ∧
          ∃ c ∈ conflicts, c.sources = [.line "s.c" 0 none])) = true)) = true := by
    decide +kernel
  obtain ⟨p, s, hp, hs, hcheck⟩ := Analysis.exists_solution_of_any hrun
  obtain ⟨conflicts, hconflicts, hkinds⟩ := exists_ok_of_any hcheck
  have hvalid := Analysis.valid_of_prepare hp
  have hlattice := (Analysis.prepare_eq_ok hp).1
  have hplaced : p.graph.PlacedIn Location.Shaped := by
    refine (Analysis.placedIn_of_prepare hp).mono ?_
    rintro place ⟨source, -, rfl⟩
    exact ⟨source, rfl⟩
  exact ⟨_, p.lattice, p.graph, s, hlattice, hvalid.closed, hvalid.labels, hplaced, hs,
    ⟨conflicts, hconflicts, of_decide_eq_true hkinds⟩,
    witnesses_explained hlattice hvalid.closed hvalid.labels hplaced hs "s.c"⟩

namespace Analysis

variable {settings : AnalysisSettings} {program : Program} {conflicts : List Conflict}

/--
Every source of a conflict is a place that the program gives, or the file of the program alone. A
place that is given on line zero is reported on line one.
-/
theorem sources_given (h : analyze settings program = .ok (.conflict conflicts)) :
    ∀ c ∈ conflicts, ∀ source ∈ c.sources, source = .line settings.sourcePath 0 none ∨
      ∃ given, program.Gives given ∧ (source = given ∨ ∃ file character,
        given = .line file 0 character ∧ source = .line file 1 character) := by
  obtain ⟨p, hp, h⟩ := exists_prepared_of_analyze h nofun
  obtain ⟨s, -, -, hexplain⟩ := explain_of_conflict h
  obtain ⟨explained, hmap, hsorted⟩ := bind_eq_ok.1 hexplain
  cases hsorted
  intro c hc source hsource
  obtain ⟨w, -, hconflict⟩ := exists_of_mem_mapM hmap c ((sortBy_perm _ _).mem_iff.1 hc)
  obtain ⟨written, hwritten, heq⟩ := bind_eq_ok.1 hconflict
  cases heq
  rcases Explanation.sources_eq_ok hwritten with ⟨rfl, -⟩ | ⟨-, hat⟩
  · exact .inl (List.mem_singleton.1 hsource)
  · obtain ⟨v, -, hv⟩ := exists_of_forall₂ hat hsource
    obtain ⟨place, ⟨given, hgiven, rfl⟩, hsource⟩ := (placedIn_of_prepare hp).isAt hv
    rw [Location.toSource_ofSource] at hsource
    cases hsource
    exact .inr ⟨given, hgiven, given.counted_cases⟩

theorem sources_given_charted : ∃ conflicts,
    analyze { sourcePath := "s.c" } charted = .ok (.conflict conflicts) ∧
    (∃ c ∈ conflicts, c.sources = [.range "r.c" ⟨⟨4, 0⟩, ⟨4, 8⟩⟩, .line "s.c" 1 none,
      .line "s.c" 9 (some 4)]) ∧
    ∀ c ∈ conflicts, ∀ source ∈ c.sources, source = .line "s.c" 0 none ∨
      ∃ given, charted.Gives given ∧ (source = given ∨ ∃ file character,
        given = .line file 0 character ∧ source = .line file 1 character) := by
  have hrun : (analyze { sourcePath := "s.c" } charted).toOption.any (fun o => decide (
      ∃ c ∈ o.conflicts, c.sources = [.range "r.c" ⟨⟨4, 0⟩, ⟨4, 8⟩⟩, .line "s.c" 1 none,
        .line "s.c" 9 (some 4)])) = true := by
    decide +kernel
  obtain ⟨o, ho, hcheck⟩ := exists_ok_of_any hrun
  obtain ⟨c, hc, hplaces⟩ := of_decide_eq_true hcheck
  cases o with
  | success t => cases hc
  | failure problems => cases hc
  | conflict conflicts => exact ⟨conflicts, ho, ⟨c, hc, hplaces⟩, sources_given ho⟩

/-- A level that reaches a function of another level, from one that is declared on line zero. -/
def aboveFirstLine : Program where
  labels := {
    functions := .ofList [
      ("p", { level := some "purple", location := some (.line "a.c" 0 none) }),
      ("o", { level := some "orange" })] }
  ir := { defUse := [⟨"p", "o", none⟩] }

theorem line_zero_reported_as_one : ∃ conflicts,
    analyze {} aboveFirstLine = .ok (.conflict conflicts) ∧
    ∃ c ∈ conflicts, c.sources = [.line "a.c" 1 none] ∧
      ¬ aboveFirstLine.Gives (.line "a.c" 1 none) := by
  have hrun : (analyze {} aboveFirstLine).toOption.any (fun o => decide (
      ∃ c ∈ o.conflicts, c.sources = [.line "a.c" 1 none] ∧
        ¬ aboveFirstLine.Gives (.line "a.c" 1 none))) = true := by
    decide +kernel
  obtain ⟨o, ho, hcheck⟩ := exists_ok_of_any hrun
  obtain ⟨c, hc, hsources⟩ := of_decide_eq_true hcheck
  cases o with
  | success t => cases hc
  | failure problems => cases hc
  | conflict conflicts => exact ⟨conflicts, ho, c, hc, hsources⟩

end Analysis

end Enclave
