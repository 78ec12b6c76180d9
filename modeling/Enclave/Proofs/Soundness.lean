import Enclave.Proofs.Consistency
import Enclave.Proofs.Preparing

/-!
# Enclave.Proofs.Soundness

A partition that is reported is secure. What leaves a node along an edge is either admitted at its
end as an argument, or dominated by and compatible with the level assigned there (`Accepts`); no
seed is above the level of its node; and no function runs at a level that its code taint does not
list (`Secure`).

* `secure_of_success`: this holds of the assignment behind every partition.
-/

namespace Enclave

/-- The level that leaves a node: the one it returns, over data alone, and else its own. -/
def Assignment.sent? (A : Assignment) (g : Graph) (e : Edge) : Option Level :=
  match g.nodes[e.source]?.bind (·.singleReturn?) with
  | some c => if e.kinds.isPureData then some c else A.level? e.source
  | none => A.level? e.source

/-- The end of an edge takes a level: as an argument, or under the level it is assigned. -/
def Accepts (g : Graph) (l : Lattice) (s : Solution) (A : Assignment) (e : Edge) (c : Level) :
    Prop :=
  g.Admits e c ∨ (s.Reached e.target ∧ ∃ b, A.level? e.target = some b ∧
    l.dominatedBy c b = true ∧ (c = b ∨ l.compatible c b = true))

/-- No edge, seed or body is at odds with the assigned levels. -/
structure Secure (g : Graph) (l : Lattice) (s : Solution) (A : Assignment) : Prop where
  edges : ∀ e ∈ g.edges.toList, s.Reached e.source →
    ∃ c, A.sent? g e = some c ∧ Accepts g l s A e c
  /-- Whether or not anything reaches the function. -/
  returns : ∀ e ∈ g.edges.toList, e.kinds.isPureData = true →
    ∀ c, g.nodes[e.source]?.bind (·.singleReturn?) = some c → Accepts g l s A e c
  seeds : ∀ (v : NodeId) (a : Level), g.nodes[v]?.bind (·.seed?) = some a →
    ∃ b, A.level? v = some b ∧ l.dominatedBy a b = true
  bodies : ∀ (v : NodeId) (code : SortedSet Level), s.Reached v →
    g.nodes[v]?.bind (·.code?) = some code → ∃ b, A.level? v = some b ∧ b ∈ code.toList

namespace Spread

variable {g : Graph} {l : Lattice} {s : Solution} {A : Assignment} {v : NodeId}

theorem Delivered.accepts {e : Edge} {i : EdgeId} {c : Level} {members : List NodeId}
    (hcl : g.Closed) (hs : Solved g l members s) (hcons : s.isConsistent = true)
    (hA : Assignment.ofSolution g l s = .ok A) (he : e ∈ g.edges.toList)
    (h : Delivered g s (e, i) c) : Accepts g l s A e c := by
  refine h.imp admits_iff.1 ?_
  rintro ⟨-, hc⟩
  obtain ⟨t, hstate, ht, hgreatest⟩ := hs.exists_greatest hcons ⟨c, hc⟩
  refine ⟨⟨c, hc⟩, t, Assignment.level?_of_state hA (hcl e he).2 hstate, hgreatest c hc, ?_⟩
  exact or_iff_not_imp_left.2 fun hne => hs.compatible hcons hc ht hne

theorem Solved.accepts_of_holds {e : Edge} {c : Level} {members : List NodeId} (hcl : g.Closed)
    (hs : Solved g l members s) (hcons : s.isConsistent = true)
    (hA : Assignment.ofSolution g l s = .ok A) (he : e ∈ g.edges.toList)
    (hown : ¬ ((g.nodes[e.source]?.bind (·.singleReturn?)).isSome ∧ e.kinds.isPureData = true))
    (hc : s.Holds e.source c) : Accepts g l s A e c := by
  obtain ⟨i, hi⟩ := exists_successor he
  exact (hs.onward e.source c hc (e, i) (mem_onwardEdges.2 ⟨hi, hown⟩)).accepts hcl hs hcons hA he

/-- The assignment read off a solution without witnesses is secure. -/
theorem Solved.secure (hcl : g.Closed) (hs : Solved g l g.components.flatten s)
    (hcons : s.isConsistent = true) (hA : Assignment.ofSolution g l s = .ok A) :
    Secure g l s A := by
  have hmem : ∀ {v}, v < g.nodes.size → v ∈ g.components.flatten :=
    fun hv => (Graph.mem_flatten_components hcl).2 hv
  have hreturns : ∀ e ∈ g.edges.toList, e.kinds.isPureData = true →
      ∀ c, g.nodes[e.source]?.bind (·.singleReturn?) = some c → Accepts g l s A e c := by
    intro e he hpure c hc
    obtain ⟨i, hi⟩ := exists_successor he
    exact (hs.returns e.source (hmem (hcl e he).1) c hc (e, i)
      (mem_returnEdges.2 ⟨hi, hpure⟩)).accepts hcl hs hcons hA he
  refine ⟨fun e he hreached => ?_, hreturns, fun v a ha => ?_, fun v code hreached hcode => ?_⟩
  · obtain ⟨t, hstate, ht, -⟩ := hs.exists_greatest hcons hreached
    have hlevel := Assignment.level?_of_state hA (hcl e he).1 hstate
    -- what is not sent in place of the node's own level goes on from there
    have honward : ¬ ((g.nodes[e.source]?.bind (·.singleReturn?)).isSome ∧
        e.kinds.isPureData = true) → Accepts g l s A e t :=
      fun hown => hs.accepts_of_holds hcl hcons hA he hown ht
    rw [Assignment.sent?]
    cases hret : g.nodes[e.source]?.bind (·.singleReturn?) with
    | none => exact ⟨t, hlevel, honward (by simp [hret])⟩
    | some c =>
      by_cases hpure : e.kinds.isPureData = true
      · exact ⟨c, if_pos hpure, hreturns e he hpure c hret⟩
      · exact ⟨t, (if_neg hpure).trans hlevel, honward fun h => hpure h.2⟩
  · obtain ⟨n, hn, -⟩ := Option.bind_eq_some_iff.1 ha
    have hv := Graph.lt_size hn
    have hholds := hs.seeds v (hmem hv) a ha
    obtain ⟨t, hstate, -, hgreatest⟩ := hs.exists_greatest hcons ⟨a, hholds⟩
    exact ⟨t, Assignment.level?_of_state hA hv hstate, hgreatest a hholds⟩
  · obtain ⟨n, hn, -⟩ := Option.bind_eq_some_iff.1 hcode
    obtain ⟨t, hstate, ht, -⟩ := hs.exists_greatest hcons hreached
    exact ⟨t, Assignment.level?_of_state hA (Graph.lt_size hn) hstate, hs.mem_code hcons hcode ht⟩

end Spread

namespace Analysis

/--
The partition of every program that has one is secure: it is read off an assignment, itself read off
a solution, in which every edge out of a node that is reached, every return level, every seed and
every code taint agrees with the levels assigned.
-/
theorem secure_of_success {engine settings : AnalysisSettings} {program : Program} {p : Prepared}
    {t : Topology} (hp : prepare engine program = .ok (.ok p))
    (ht : solve settings p = .ok (.success t)) :
    ∃ s A, p.graph.solve p.lattice settings.solver = .ok s ∧
      Assignment.ofSolution p.graph p.lattice s = .ok A ∧
      A.topology p.graph p.lattice settings.sourcePath = .ok t ∧
      Secure p.graph p.lattice s A := by
  have hvalid := valid_of_prepare hp
  obtain ⟨s, A, hs, hcons, hA, htopology⟩ := solve_eq_success ht
  have hsolved := Graph.solved_of_solve hvalid.lawful hvalid.labels hvalid.closed hs
  exact ⟨s, A, hs, hA, htopology, hsolved.secure hvalid.closed hcons hA⟩

/-- Two enclaves: the handler takes orange arguments, runs in purple and returns orange. -/
def crossing : Program where
  labels := {
    functions := .ofList [
      ("main", { level := some "orange" }),
      ("handler", { taint := some {
        returns := some ["orange"], arguments := some ["orange"], code := some ["purple"] } })] }
  ir := {
    functions := [{ name := "main" }, { name := "handler" }, { name := "log" }]
    calls := [⟨"main", "handler", none⟩]
    defUse := [⟨"main", "handler", none⟩, ⟨"handler", "main", none⟩, ⟨"log", "log", none⟩] }
  pdg := { control := [⟨"main", "log", none⟩, ⟨"log", "main", none⟩] }

theorem secure_of_success_crossing : ∃ p t, prepare {} crossing = .ok (.ok p) ∧
    solve {} p = .ok (.success t) ∧
    ∃ s A, p.graph.solve p.lattice {} = .ok s ∧
      Assignment.ofSolution p.graph p.lattice s = .ok A ∧
      A.topology p.graph p.lattice "" = .ok t ∧ Secure p.graph p.lattice s A := by
  have hrun : (prepare {} crossing).toOption.any (fun r => r.toOption.any fun p =>
      (solve {} p).toOption.any fun o => o.topology?.isSome) = true := by decide +kernel
  obtain ⟨r, hp, hr⟩ := exists_ok_of_any hrun
  obtain ⟨p, rfl, hsolve⟩ := exists_ok_of_any hr
  obtain ⟨o, ho, hsome⟩ := exists_ok_of_any hsolve
  cases o with
  | success t => exact ⟨p, t, hp, ho, secure_of_success hp ho⟩
  | conflict conflicts => cases hsome
  | failure problems => cases hsome

end Analysis

end Enclave
