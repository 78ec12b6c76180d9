import Enclave.Proofs.Accesses
import Enclave.Proofs.Placing
import Enclave.Proofs.Termination

/-!
# Enclave.Proofs.Admissible

Programs whose analysis always comes to an outcome. The sums that an analysis takes are the numbers
of lines, the distances of levels and the size of the graph. Lines that are counted from one have
their number; of the lines counted from zero the last has none, so the ranges of a program must not
start there. A distance is less than the number of nodes, and a sum of two of them fits a word if
that number fits half of it.

* `outcome_in_bounds`: such a program has an outcome, and whatever table is looked into on the way
  to it has an entry at that position.
-/

namespace Enclave

/-- The line on which the place starts has a number. -/
def Location.Numbered (p : Location) : Prop := p.range.start.line.toNat + 1 < word32

theorem Location.numbered_ofSource {source : Source}
    (h : ∀ file range, source = .range file range → range.start.line ≠ 4294967295) :
    (ofSource source).Numbered := by
  cases source with
  | line file line character => cases character <;> exact positionOf_line_lt _ _
  | range file range =>
    have hne := h file range rfl
    have hlt := range.start.line.toNat_lt
    have hlast : range.start.line.toNat ≠ 4294967295 := fun heq =>
      hne (UInt32.toNat_inj.1 heq)
    show range.start.line.toNat + 1 < 4294967296
    omega

theorem Location.exists_render {p : Location} (hp : p.Numbered) : ∃ text, p.render = .ok text := by
  obtain ⟨line, hline⟩ := lineNumber_isOk_iff.2 hp
  rw [render, hline, ok_bind]
  cases p.precision <;> exact ⟨_, rfl⟩

namespace Graph

def Numbered (g : Graph) : Prop := ∀ (v : NodeId) (n : Node), g.nodes[v]? = some n → n.Numbered

theorem exists_siteName (caller callee : String) {site : Location} (hsite : site.Numbered) :
    ∃ name, siteName caller callee site = .ok name := by
  obtain ⟨text, htext⟩ := Location.exists_render hsite
  rw [siteName, htext]
  exact ⟨_, rfl⟩

end Graph

def Program.places (p : Program) : List Source :=
  (p.labels.functions.values ++ p.labels.globals.values).filterMap (·.location) ++
    (p.ir.functions ++ p.ir.globals).filterMap (·.location) ++
    p.ir.calls.filterMap (·.site) ++ (p.ir.defUse ++ p.pdg.control).filterMap (·.location)

theorem Program.Gives.mem_places {p : Program} {source : Source} (h : p.Gives source) :
    source ∈ p.places := by
  rw [places, List.mem_append, List.mem_append, List.mem_append]
  simp only [List.mem_filterMap]
  rcases h with h | h | h
  · exact .inl (.inl (.inl h))
  · exact .inl (.inl (.inr h))
  · exact .inl (.inr h)

namespace Draft

variable {d : Draft}

theorem addCall_ends {c : CallDecl}
    (hc : ∀ source, c.site = some source → (Location.ofSource source).Numbered) :
    Ends (fun d' => d.errors ⊆ d'.errors) (fun _ => False) (d.addCall c) := by
  have hadded : ∃ r, d.graph.addCall c = .ok r := by
    rw [Graph.addCall]
    cases hsite : c.site with
    | none => exact ⟨_, rfl⟩
    | some source =>
      obtain ⟨name, hname⟩ := Graph.exists_siteName c.caller c.callee (hc source hsite)
      rw [Option.map_some, Graph.call, hname]
      exact ⟨_, rfl⟩
  obtain ⟨r, hr⟩ := hadded
  rw [addCall, hr]
  cases r with
  | ok g => exact List.Subset.refl _
  | error e => exact List.subset_append_left _ _

theorem addCalls_ends {calls : List CallDecl}
    (hcalls : ∀ c ∈ calls, ∀ source, c.site = some source → (Location.ofSource source).Numbered) :
    Ends (fun d' => d.errors ⊆ d'.errors) (fun _ => False) (calls.foldlM addCall d) := by
  refine Ends.foldlM_of_mem (fun c hc d₁ hd₁ => ?_) (List.Subset.refl _)
  refine (addCall_ends (hcalls c hc)).mono (fun d₂ hd₂ => ?_) fun _ h => h
  exact List.Subset.trans hd₁ hd₂

end Draft

/-- A graph is built or refused, and whatever was noted of its declarations is a reason. -/
theorem Graph.exists_ofProgram {ir : IrFacts} (pdg : PdgFacts) (labels : Labels)
    (hcalls : ∀ c ∈ ir.calls, ∀ source, c.site = some source →
      (Location.ofSource source).Numbered) :
    ∃ r, ofProgram ir pdg labels = .ok r ∧
      ∀ e ∈ (declared ir labels).errors, ∃ errors, r = .error errors ∧ e ∈ errors := by
  have hends : Ends _ _ (ir.calls.foldlM Draft.addCall (declared ir labels)) :=
    Draft.addCalls_ends hcalls
  unfold ofProgram
  cases hd : ir.calls.foldlM Draft.addCall (declared ir labels) with
  | error c =>
    rw [hd] at hends
    exact hends.elim
  | ok d =>
    rw [hd] at hends
    rw [ok_bind]
    cases herrors : d.errors with
    | nil =>
      refine ⟨_, rfl, fun e he => ?_⟩
      have hmem := hends he
      rw [herrors] at hmem
      cases hmem
    | cons e₀ errors =>
      refine ⟨_, rfl, fun e he => ⟨e₀ :: errors, rfl, ?_⟩⟩
      rw [← herrors]
      exact hends he

namespace Analysis

variable {settings : AnalysisSettings} {program : Program} {p : Prepared}

theorem exists_prepare (settings : AnalysisSettings)
    (hcalls : ∀ c ∈ program.ir.calls, ∀ source, c.site = some source →
      (Location.ofSource source).Numbered) :
    ∃ r, prepare settings program = .ok r := by
  rw [prepare]
  split
  · exact ⟨_, rfl⟩
  · rename_i l hl
    obtain ⟨r, hr, -⟩ := Graph.exists_ofProgram program.pdg
      ((program.labels.resolve l).toOption.getD {}) hcalls
    rw [prepareWith, hr, ok_bind]
    cases r with
    | error errors => exact ⟨_, rfl⟩
    | ok graph =>
      dsimp only
      split
      · split <;> exact ⟨_, rfl⟩
      · exact ⟨_, rfl⟩

theorem numbered_prepare (h : ∀ source ∈ program.places, (Location.ofSource source).Numbered) :
    Ends (fun r => ∀ p, r = .ok p → p.graph.Numbered) (fun _ => False)
      (prepare settings program) := by
  have hcalls : ∀ c ∈ program.ir.calls, ∀ source, c.site = some source →
      (Location.ofSource source).Numbered := by
    intro c hc source hsource
    exact h source (Program.Gives.mem_places (.inr (.inr ⟨c, hc, hsource⟩)))
  obtain ⟨r, hr⟩ := exists_prepare settings hcalls
  rw [hr]
  intro p hp
  subst hp
  refine (placedIn_of_prepare hr).mono ?_
  rintro place ⟨source, hgives, rfl⟩
  exact h source hgives.mem_places

/-- A prepared program whose sums fit their words has an outcome, whatever cap is set. -/
theorem exists_outcome (hp : p.Valid) (hlines : p.graph.Numbered)
    (hnodes : p.graph.nodes.size < 2 ^ 31) (hedges : p.graph.edges.size < 2 ^ 32) :
    ∃ o, solve settings p = .ok o := by
  have hcap : ∃ cap, settings.solver.stepCap p.graph.nodes.size p.graph.edges.size
      p.lattice.size = .ok cap := by
    have hsize : p.graph.edges.size + p.graph.nodes.size < word64 := by
      have : word64 = 18446744073709551616 := rfl
      omega
    rw [SolverSettings.stepCap, addBelow, if_pos hsize]
    exact ⟨_, rfl⟩
  obtain ⟨cap, hcap⟩ := hcap
  have hsolve := Graph.solve_eq hcap
  -- the cap may be too small, so what the errors tell is all that is asked here
  have hends : Ends (fun _ => True) (Spread.Fails p.graph cap False)
      (Spread.runAll p.graph p.lattice { cap } p.graph.components) :=
    (Graph.components_ends hp.lawful hp.labels hp.closed False.elim).mono (fun _ _ => trivial)
      fun _ h => h
  cases hrun : Spread.runAll p.graph p.lattice { cap } p.graph.components with
  | error e =>
    rw [hrun] at hends hsolve
    have hs : p.graph.solve p.lattice settings.solver = .error e := hsolve
    cases e with
    | resourceExhausted cap =>
      rw [solve, hs]
      exact ⟨_, rfl⟩
    | noLevels nodes => exact absurd hends id
    | overflow c =>
      have hbig : word32 ≤ 2 * p.graph.nodes.size := hends
      have : word32 = 4294967296 := rfl
      omega
  | ok r =>
    rw [hrun] at hsolve
    have hs : p.graph.solve p.lattice settings.solver = .ok r.1 := hsolve
    have hend : Ends _ _ (solve settings p) := solve_ends hp hs
    cases ho : solve settings p with
    | ok o => exact ⟨o, rfl⟩
    | error c =>
      rw [ho] at hend
      obtain ⟨⟨n, hn, -, hlast⟩, -⟩ := hend
      obtain ⟨v, hv⟩ := Array.mem_iff_getElem?.1 (Array.mem_toList_iff.1 hn)
      exact absurd (hlines v n hv) hlast

/--
A program none of whose ranges starts on the last line of all, and whose graph is not too large, has
an outcome: no sum leaves its word. Its graph is kept in an arena, the run over each component goes
through the stages whose accesses are listed, and every access to a table of the lattice or of that
arena is in bounds.
-/
theorem outcome_in_bounds (settings : AnalysisSettings) (program : Program)
    (hlines : ∀ file range, .range file range ∈ program.places →
      range.start.line ≠ 4294967295)
    (hsize : ∀ p, prepare settings program = .ok (.ok p) →
      p.graph.nodes.size < 2 ^ 31 ∧ p.graph.edges.size < 2 ^ 32) :
    (∃ o, analyze settings program = .ok o) ∧
    (∀ p, prepare settings program = .ok (.ok p) → p.graph.Kept ∧
      ∀ members ∈ p.graph.components, ∀ budget : Budget, budget.used ≤ budget.cap →
        Ends (fun r => ∃ st, Spread.Stage.Reaches p.graph p.lattice (.start members budget) st ∧
            st.Done ∧ r = (st.flow.solution, st.flow.budget))
          (fun err => ∃ st, Spread.Stage.Reaches p.graph p.lattice (.start members budget) st ∧
            st.Stops p.graph p.lattice err)
          (Spread.run p.graph p.lattice members budget)) ∧
    ∀ x, Accesses settings program x → x.InBounds := by
  have hplaces : ∀ source ∈ program.places, (Location.ofSource source).Numbered := by
    intro source hsource
    refine Location.numbered_ofSource fun file range heq => ?_
    subst heq
    exact hlines file range hsource
  refine ⟨?_, fun p hp => ⟨Graph.kept_ofProgram (prepare_eq_ok hp).2.2.1,
    fun members _ _ hb => Spread.run_stages p.graph p.lattice members hb⟩,
    fun x hx => inBounds_of_accesses hx⟩
  have hends : Ends _ _ (prepare settings program) := numbered_prepare hplaces
  cases hr : prepare settings program with
  | error c =>
    rw [hr] at hends
    exact hends.elim
  | ok r =>
    rw [hr] at hends
    cases r with
    | error problems => exact ⟨.failure problems, by rw [analyze, hr]; rfl⟩
    | ok p =>
      obtain ⟨hnodes, hedges⟩ := hsize p hr
      rw [analyze_eq_solve hr]
      exact exists_outcome (valid_of_prepare hr) (hends p rfl) hnodes hedges

/-- Two levels that meet, at places of every shape: one of them is on the last line but one. -/
def lastButOne : Program where
  labels := {
    functions := .ofList [
      ("f", {
        level := some "p", location := some (.range "o.c" ⟨⟨4294967294, 0⟩, ⟨4294967295, 9⟩⟩) }),
      ("g", { level := some "q", location := some (.line "o.c" 4294967295 none) })] }
  ir := {
    calls := [⟨"f", "g", some (.line "o.c" 0 (some 3))⟩, ⟨"g", "f", none⟩]
    defUse := [⟨"g", "h", some (.range "o.c" ⟨⟨7, 0⟩, ⟨7, 4⟩⟩)⟩] }

theorem outcome_in_bounds_last_but_one :
    (∀ file range, .range file range ∈ lastButOne.places → range.start.line ≠ 4294967295) ∧
    (∀ p, prepare {} lastButOne = .ok (.ok p) →
      p.graph.nodes.size < 2 ^ 31 ∧ p.graph.edges.size < 2 ^ 32) ∧
    (∃ o, analyze {} lastButOne = .ok o) ∧
    (∃ p, prepare {} lastButOne = .ok (.ok p) ∧ p.graph.Kept) ∧
    Accesses {} lastButOne (.cell .joins 0 1 2) ∧
    ∀ x, Accesses {} lastButOne x → x.InBounds := by
  have hplaces : lastButOne.places = [.range "o.c" ⟨⟨4294967294, 0⟩, ⟨4294967295, 9⟩⟩,
      .line "o.c" 4294967295 none, .line "o.c" 0 (some 3),
      .range "o.c" ⟨⟨7, 0⟩, ⟨7, 4⟩⟩] := by
    decide +kernel
  have hlines : ∀ file range, .range file range ∈ lastButOne.places →
      range.start.line ≠ 4294967295 := by
    intro file range h
    rw [hplaces] at h
    simp only [List.mem_cons, Source.range.injEq, reduceCtorEq, false_or, List.not_mem_nil,
      or_false] at h
    rcases h with ⟨-, rfl⟩ | ⟨-, rfl⟩ <;> decide
  have hrun : (prepare {} lastButOne).toOption.any (fun r => r.toOption.any fun p =>
      decide (p.graph.nodes.size < 2 ^ 31 ∧ p.graph.edges.size < 2 ^ 32)) = true := by
    decide +kernel
  obtain ⟨r, hp, hr⟩ := exists_ok_of_any hrun
  obtain ⟨p, rfl, hcheck⟩ := exists_ok_of_any hr
  have hsize : ∀ p', prepare {} lastButOne = .ok (.ok p') →
      p'.graph.nodes.size < 2 ^ 31 ∧ p'.graph.edges.size < 2 ^ 32 := by
    intro p' hp'
    cases hp.symm.trans hp'
    exact of_decide_eq_true hcheck
  obtain ⟨houtcome, hkept, hbounds⟩ := outcome_in_bounds {} lastButOne hlines hsize
  have haccess : Accesses {} lastButOne (.cell .joins 0 1 2) := .lattice (by decide +kernel)
  exact ⟨hlines, hsize, houtcome, ⟨p, hp, (hkept p hp).1⟩, haccess, hbounds⟩

end Analysis

end Enclave
