import Enclave.Proofs.Reporting

/-!
# Enclave.Proofs.Termination

Without a cap of its own an analysis always has enough steps. Each level crosses each edge at most
once and each seed is planted once, so the steps of all components together are at most the number
of edges times that of levels, and one for each seed; the steps allowed are at least as many.

What remains that can end an analysis without an outcome is a number that does not fit its word: a
distance, in a graph of more than two billion nodes, or the line of a function or global that is
declared on the last line that a word can count.

* `concludes_without_cap`: what follows for the spread, and for the whole analysis.
-/

namespace Enclave

theorem SolverSettings.stepCap_eq {settings : SolverSettings} {nodes edges levels : Nat}
    (hmax : settings.maxSteps = none) (hsize : edges + nodes < word64)
    (hfits : (edges + nodes) * levels < word64) :
    settings.stepCap nodes edges levels = .ok ((edges + nodes) * levels) := by
  have hmin : min ((edges + nodes) * levels) (word64 - 1) = (edges + nodes) * levels :=
    Nat.min_eq_left (Nat.le_sub_one_of_lt hfits)
  rw [stepCap, addBelow, if_pos hsize, hmax, ← hmin]
  rfl

theorem Prepared.Valid.size_lt {p : Prepared} (h : p.Valid)
    (hfits : (p.graph.edges.size + p.graph.nodes.size) * p.lattice.size < word64) :
    p.graph.edges.size + p.graph.nodes.size < word64 := by
  rcases Nat.eq_zero_or_pos p.graph.nodes.size with hzero | hpos
  · -- without nodes there are no edges either
    have hedges : p.graph.edges.size = 0 := by
      rw [← Array.length_toList, List.length_eq_zero_iff, List.eq_nil_iff_forall_not_mem]
      intro e he
      have := (h.closed e he).1
      rw [hzero] at this
      exact absurd this (Nat.not_lt_zero _)
    rw [hzero, hedges]
    decide
  · exact Nat.lt_of_le_of_lt (Nat.le_mul_of_pos_right _ (h.levels hpos)) hfits

/-- An element whose line cannot be listed: it is declared on the last line of all. -/
def Graph.Unlisted (g : Graph) : Prop := ∃ n ∈ g.nodes.toList, n.kind ≠ .callSite ∧ ¬ n.Numbered

instance (g : Graph) : Decidable g.Unlisted :=
  inferInstanceAs (Decidable (∃ n ∈ g.nodes.toList, n.kind ≠ .callSite ∧ ¬ n.Numbered))

/-- What an analysis without a cap of its own comes to. -/
structure Concludes (settings : AnalysisSettings) (program : Program) (p : Prepared) : Prop where
  /-- The steps allowed are at least those that the spread can take. -/
  cap : settings.solver.stepCap p.graph.nodes.size p.graph.edges.size p.lattice.size =
      .ok ((p.graph.edges.size + p.graph.nodes.size) * p.lattice.size) ∧
    p.graph.edges.size * p.lattice.size + p.graph.seeded ≤
      (p.graph.edges.size + p.graph.nodes.size) * p.lattice.size
  /-- The spread over all components ends within these steps, and gives every node a level. -/
  spread : Ends (fun r => Spread.Solved p.graph p.lattice p.graph.components.flatten r.1 ∧
      r.2.used ≤ p.graph.edges.size * p.lattice.size + p.graph.seeded ∧
      ∃ A, Assignment.ofSolution p.graph p.lattice r.1 = .ok A)
    (fun _ => word32 ≤ 2 * p.graph.nodes.size)
    (Spread.runAll p.graph p.lattice
      { cap := (p.graph.edges.size + p.graph.nodes.size) * p.lattice.size } p.graph.components)
  /-- The outcome is a partition or at least one conflict. -/
  outcome : Ends (fun o => (∃ t, o = .success t) ∨ ∃ conflicts, conflicts ≠ [] ∧
      o = .conflict conflicts)
    (fun _ => word32 ≤ 2 * p.graph.nodes.size ∨ p.graph.Unlisted) (analyze settings program)
  /-- There is no outcome exactly when a partition would have to list a line without a number. -/
  overflow : 2 * p.graph.nodes.size < word32 → ((∃ e, analyze settings program = .error e) ↔
    p.graph.Unlisted ∧
      ∃ s, p.graph.solve p.lattice settings.solver = .ok s ∧ s.isConsistent = true)

namespace Analysis

variable {settings : AnalysisSettings} {program : Program} {p : Prepared} {s : Solution}

theorem analyze_eq_solve (hp : prepare settings program = .ok (.ok p)) :
    analyze settings program = solve settings p := by
  rw [analyze, hp]
  rfl

theorem seeded_bound (hvalid : p.Valid) : p.graph.edges.size * p.lattice.size + p.graph.seeded ≤
    (p.graph.edges.size + p.graph.nodes.size) * p.lattice.size := by
  rw [Nat.add_mul]
  exact Nat.add_le_add_left (Graph.seeded_le hvalid.labels) _

theorem spread_ends (hvalid : p.Valid) :
    Ends (fun r => Spread.Solved p.graph p.lattice p.graph.components.flatten r.1 ∧
        r.2.used ≤ p.graph.edges.size * p.lattice.size + p.graph.seeded)
      (fun e => ∃ c, e = .overflow c ∧ word32 ≤ 2 * p.graph.nodes.size)
      (Spread.runAll p.graph p.lattice
        { cap := (p.graph.edges.size + p.graph.nodes.size) * p.lattice.size }
        p.graph.components) := by
  refine (Graph.components_ends hvalid.lawful hvalid.labels hvalid.closed
    fun (_ : True) => seeded_bound hvalid).mono (fun _ h => h) fun e he => ?_
  cases e with
  | resourceExhausted => exact absurd trivial he.2
  | noLevels => exact absurd he id
  | overflow c => exact ⟨c, rfl, he⟩

theorem exists_solved (hmax : settings.solver.maxSteps = none) (hvalid : p.Valid)
    (hsteps : (p.graph.edges.size + p.graph.nodes.size) * p.lattice.size < word64)
    (hdistances : 2 * p.graph.nodes.size < word32) :
    ∃ s, p.graph.solve p.lattice settings.solver = .ok s := by
  have hsolve := Graph.solve_eq (SolverSettings.stepCap_eq hmax (hvalid.size_lt hsteps) hsteps)
  have hends := spread_ends hvalid
  cases hrun : Spread.runAll p.graph p.lattice
      { cap := (p.graph.edges.size + p.graph.nodes.size) * p.lattice.size } p.graph.components with
  | error e =>
    rw [hrun] at hends
    obtain ⟨c, -, hbig⟩ := hends
    exact absurd hdistances (Nat.not_lt.2 hbig)
  | ok r =>
    rw [hrun] at hsolve
    exact ⟨r.1, hsolve⟩

theorem solve_of_consistent (hvalid : p.Valid)
    (hs : p.graph.solve p.lattice settings.solver = .ok s) (hcons : s.isConsistent = true) :
    Ends (fun o => (∃ t, o = .success t) ∧ ¬ p.graph.Unlisted) (fun _ => p.graph.Unlisted)
      (solve settings p) := by
  obtain ⟨A, hA⟩ : ∃ A, Assignment.ofSolution p.graph p.lattice s = .ok A :=
    Assignment.ofSolution_isOk hvalid.lawful hvalid.levels
  have hlisted : (∃ t, A.topology p.graph p.lattice settings.sourcePath = .ok t) ↔
      ¬ p.graph.Unlisted := by
    rw [Assignment.topology_isOk_iff (Assignment.length_ofSolution hA), Graph.Unlisted]
    push Not
    rfl
  rw [solve, hs]
  simp only [hcons, if_true, hA]
  cases ht : A.topology p.graph p.lattice settings.sourcePath with
  | ok t => exact ⟨⟨t, rfl⟩, hlisted.1 ⟨t, ht⟩⟩
  | error e =>
    show p.graph.Unlisted
    by_contra hlist
    obtain ⟨t, ht'⟩ := hlisted.2 hlist
    rw [ht] at ht'
    cases ht'

theorem solve_of_inconsistent (hvalid : p.Valid)
    (hs : p.graph.solve p.lattice settings.solver = .ok s) (hcons : s.isConsistent = false) :
    ∃ conflicts, conflicts ≠ [] ∧ solve settings p = .ok (.conflict conflicts) := by
  obtain ⟨conflicts, hconflicts, hlength⟩ := Explanation.explain_isOk (l := p.lattice) (s := s)
    hvalid.located settings.sourcePath
  refine ⟨conflicts, ?_, ?_⟩
  · rintro rfl
    rw [Solution.isConsistent, List.eq_nil_of_length_eq_zero hlength.symm] at hcons
    cases hcons
  · rw [solve, hs]
    simp only [hcons, hconflicts]
    rfl

/-- What a solution is reported as: a partition, or at least one conflict. -/
def Reported (s : Solution) (o : Outcome) : Prop :=
  (s.isConsistent = true ∧ ∃ t, o = .success t) ∨
    (s.isConsistent = false ∧ ∃ conflicts, conflicts ≠ [] ∧ o = .conflict conflicts)

/-- A solution is reported unless a partition would have to list a line without a number. -/
theorem solve_ends (hvalid : p.Valid) (hs : p.graph.solve p.lattice settings.solver = .ok s) :
    Ends (fun o => ¬ (p.graph.Unlisted ∧ s.isConsistent = true) ∧ Reported s o)
      (fun _ => p.graph.Unlisted ∧ s.isConsistent = true) (solve settings p) := by
  cases hcons : s.isConsistent with
  | true =>
    exact (solve_of_consistent hvalid hs hcons).mono
      (fun _ h => ⟨fun hun => h.2 hun.1, .inl ⟨hcons, h.1⟩⟩) fun _ h => ⟨h, rfl⟩
  | false =>
    obtain ⟨conflicts, hne, hconflict⟩ := solve_of_inconsistent hvalid hs hcons
    rw [hconflict]
    exact ⟨fun hun => Bool.false_ne_true hun.2, .inr ⟨hcons, conflicts, hne, rfl⟩⟩

theorem solve_of_overflow {c : Overflow}
    (hs : p.graph.solve p.lattice settings.solver = .error (.overflow c)) :
    solve settings p = .error c := by
  rw [solve, hs]
  rfl

/--
With no cap set, every program that is accepted gets its outcome: there are enough steps, whatever
cycles there are, and neither the steps nor the levels run out. Only numbers that do not fit their
word can prevent it.
-/
theorem concludes_without_cap (hmax : settings.solver.maxSteps = none)
    (hp : prepare settings program = .ok (.ok p))
    (hfits : (p.graph.edges.size + p.graph.nodes.size) * p.lattice.size < word64) :
    Concludes settings program p := by
  have hvalid := valid_of_prepare hp
  have hcap := SolverSettings.stepCap_eq hmax (hvalid.size_lt hfits) hfits
  have hbound := seeded_bound hvalid
  have hends := spread_ends hvalid
  have hsolve := Graph.solve_eq hcap
  have hanalyze := analyze_eq_solve hp
  cases hrun : Spread.runAll p.graph p.lattice
      { cap := (p.graph.edges.size + p.graph.nodes.size) * p.lattice.size } p.graph.components with
  | error e =>
    rw [hrun] at hends hsolve
    obtain ⟨c, rfl, hbig⟩ := hends
    refine ⟨⟨hcap, hbound⟩, by rw [hrun]; exact hbig, ?_, fun h => absurd hbig (Nat.not_le.2 h)⟩
    rw [hanalyze, solve_of_overflow hsolve]
    exact .inl hbig
  | ok r =>
    rw [hrun] at hends hsolve
    have hA : ∃ A, Assignment.ofSolution p.graph p.lattice r.1 = .ok A :=
      Assignment.ofSolution_isOk hvalid.lawful hvalid.levels
    have hs : p.graph.solve p.lattice settings.solver = .ok r.1 := hsolve
    have hend := solve_ends hvalid hs
    refine ⟨⟨hcap, hbound⟩, by rw [hrun]; exact ⟨hends.1, hends.2, hA⟩, ?_, fun _ => ?_⟩
    · rw [hanalyze]
      exact hend.mono (fun _ h => h.2.imp (·.2) (·.2)) fun _ h => .inr h.1
    · rw [hanalyze]
      cases ho : solve settings p with
      | error e =>
        rw [ho] at hend
        exact ⟨fun _ => ⟨hend.1, r.1, hs, hend.2⟩, fun _ => ⟨e, rfl⟩⟩
      | ok o =>
        rw [ho] at hend
        constructor
        · rintro ⟨e, he⟩
          cases he
        · rintro ⟨hunlisted, s, hs', hcons⟩
          cases hs.symm.trans hs'
          exact absurd ⟨hunlisted, hcons⟩ hend.1

/-- Three functions in a ring, each at a level of its own of one chain. -/
def ring : Program where
  labels := {
    functions := .ofList [
      ("a", { level := some "low" }), ("b", { level := some "mid" }),
      ("c", { level := some "high" })] }
  ir := {
    defUse := [⟨"a", "b", none⟩, ⟨"b", "c", none⟩, ⟨"c", "a", none⟩, ⟨"a", "a", none⟩] }

theorem concludes_without_cap_ring : ∃ settings p, settings.solver.maxSteps = none ∧
    prepare settings ring = .ok (.ok p) ∧
    (p.graph.edges.size + p.graph.nodes.size) * p.lattice.size < word64 ∧
    Concludes settings ring p := by
  let settings : AnalysisSettings :=
    { lattice := { order := [("low", "mid"), ("mid", "high")] } }
  have hrun : (prepare settings ring).toOption.any (fun r => r.toOption.any fun p =>
      decide ((p.graph.edges.size + p.graph.nodes.size) * p.lattice.size < word64)) = true := by
    decide +kernel
  obtain ⟨r, hp, hr⟩ := exists_ok_of_any hrun
  obtain ⟨p, rfl, hcheck⟩ := exists_ok_of_any hr
  have hfits := of_decide_eq_true hcheck
  exact ⟨settings, p, rfl, hp, hfits, concludes_without_cap rfl hp hfits⟩

/-- A function declared on the last line that a word can count, with nothing else around it. -/
def lastLine : Program where
  labels := {
    functions := .ofList [("f", {
      level := some "p", location := some (.range "o.c" ⟨⟨4294967295, 0⟩, ⟨4294967295, 9⟩⟩) })] }

theorem no_outcome_on_last_line :
    (∃ p, prepare {} lastLine = .ok (.ok p) ∧
      (p.graph.edges.size + p.graph.nodes.size) * p.lattice.size < word64) ∧
    analyze {} lastLine = .error .add := by
  have hrun : (prepare {} lastLine).toOption.any (fun r => r.toOption.any fun p =>
      decide ((p.graph.edges.size + p.graph.nodes.size) * p.lattice.size < word64)) = true := by
    decide +kernel
  obtain ⟨r, hp, hr⟩ := exists_ok_of_any hrun
  obtain ⟨p, rfl, hcheck⟩ := exists_ok_of_any hr
  exact ⟨⟨p, hp, of_decide_eq_true hcheck⟩, by decide +kernel⟩

end Analysis

end Enclave
