import Enclave.Proofs.Decomposition

/-!
# Enclave.Proofs.Scheduling

Components that are solved at the same time share one budget. A `Worker` solves one of them; all
that it has done is decided by the steps it was granted, and it stops to ask for one more where
those are not enough. A `Pool` is the budget and its workers, and a schedule says whose turn it is.
Workers take their steps from the budget in whatever order the schedule has them ask.

* `Pool.Sound`: what one turn keeps. The steps that were granted are the steps that were taken, no
  worker is granted more than it needs, and none is refused before all steps are taken.
* `Pool.eq_ok_of_le`, `Pool.eq_error_of_lt`: the cap alone decides how a pool ends.
* `Pool.exists_returns`: a pool ends once every worker has had its turns.
* `schedule_independent`: so the answer depends neither on the schedule nor on a cap that is enough.
-/

namespace Enclave

attribute [local instance] lexOrd

/-- One component being solved beside others. -/
structure Worker where
  members : List NodeId
  /-- The steps that it has taken from the budget. -/
  granted : Nat := 0
  /-- What it failed with when the budget had no step left for it. -/
  refusal : Option SolveError := none

structure Pool where
  budget : Budget
  workers : List Worker

/-- How the worker has ended; one that has not is about to ask for a step. -/
def Worker.result? (g : Graph) (l : Lattice) (w : Worker) : Option (Except SolveError Solution) :=
  match w.refusal with
  | some e => some (.error e)
  | none =>
    match Spread.run g l w.members { cap := w.granted } with
    | .ok (s, _) => some (.ok s)
    | .error (.resourceExhausted _) => none
    | .error e => some (.error e)

namespace Pool

/-- A worker for each component, and a budget of which nothing is used. -/
def start (g : Graph) (cap : Nat) : Pool := ⟨{ cap }, g.components.map fun p => { members := p }⟩

/-- The turn of one worker: if it has not ended it asks for a step. -/
def turn (g : Graph) (l : Lattice) (p : Pool) (i : Nat) : Pool :=
  match p.workers[i]? with
  | none => p
  | some w =>
    match w.result? g l with
    | some _ => p
    | none =>
      match p.budget.take with
      | .ok budget => ⟨budget, p.workers.set i { w with granted := w.granted + 1 }⟩
      | .error e => ⟨p.budget, p.workers.set i { w with refusal := some e }⟩

def run (g : Graph) (l : Lattice) (p : Pool) (schedule : List Nat) : Pool :=
  schedule.foldl (turn g l) p

/-- What a pool returns: the error of a worker that failed, or what all of them found. -/
inductive Returns (g : Graph) (l : Lattice) (p : Pool) : Except SolveError Solution → Prop
  | failed {w : Worker} {e : SolveError} : w ∈ p.workers → w.result? g l = some (.error e) →
      Returns g l p (.error e)
  | finished {parts : List Solution} :
      p.workers.map (·.result? g l) = parts.map (fun s => some (.ok s)) →
      Returns g l p (.ok (parts.foldr Solution.absorb {}))

end Pool

namespace Spread

variable {g : Graph} {l : Lattice} {members : List NodeId} {n : Nat} {s : Solution}

/-- On every budget the run takes `n` steps and gives the solution, unless it runs out of steps. -/
def Takes (g : Graph) (l : Lattice) (members : List NodeId) (n : Nat) (s : Solution) : Prop :=
  ∀ b : Budget, b.used ≤ b.cap → run g l members b = (b.pay n).map fun b => (s, b)

theorem takes_of_course {f : Flow} (h : RunCourse g l members n (.ok f)) :
    Takes g l members n f.solution := by
  intro b hb
  rw [run_of_course h hb]
  cases b.pay n <;> rfl

theorem result?_of_takes {w : Worker} (h : Takes g l w.members n s) (hw : w.refusal = none) :
    w.result? g l = if n ≤ w.granted then some (.ok s) else none := by
  unfold Worker.result?
  rw [hw, h ⟨w.granted, 0⟩ (Nat.zero_le _)]
  unfold Budget.pay
  by_cases hle : n ≤ w.granted
  · simp [hle, Except.map]
  · simp [hle, Except.map]

def total (g : Graph) (need : List NodeId → Nat) : Nat := (g.components.map need).sum

def together (g : Graph) (part : List NodeId → Solution) : Solution :=
  (g.components.map part).foldr Solution.absorb {}

theorem runAll_of_takes {need : List NodeId → Nat} {part : List NodeId → Solution}
    {parts : List (List NodeId)} (h : ∀ p ∈ parts, Takes g l p (need p) (part p)) {b : Budget}
    (hb : b.used ≤ b.cap) :
    runAll g l b parts =
      (b.pay (parts.map need).sum).map fun b => ((parts.map part).foldr Solution.absorb {}, b) := by
  induction parts generalizing b with
  | nil =>
    show _ = (b.pay 0).map _
    rw [Budget.pay_zero hb]
    rfl
  | cons p parts ih =>
    simp only [List.map_cons, List.sum_cons]
    rw [runAll, h p List.mem_cons_self b hb, Budget.pay_add]
    cases hpay : b.pay (need p) with
    | error e => rfl
    | ok b₁ =>
      show (runAll g l b₁ parts >>= _) = _
      rw [ih (fun q hq => h q (List.mem_cons_of_mem p hq)) (Budget.fits_of_pay hpay)]
      show _ = (b₁.pay (parts.map need).sum).map _
      cases b₁.pay (parts.map need).sum <;> rfl

end Spread

namespace Pool

open Spread

variable {g : Graph} {l : Lattice} {need : List NodeId → Nat} {part : List NodeId → Solution}
  {p : Pool} {cap i : Nat} {schedule : List Nat} {r : Except SolveError Solution}

/-- What every schedule keeps. -/
structure Sound (g : Graph) (need : List NodeId → Nat) (cap : Nat) (p : Pool) : Prop where
  capped : p.budget.cap = cap
  used : p.budget.used = (p.workers.map (·.granted)).sum
  fits : p.budget.used ≤ cap
  members : p.workers.map (·.members) = g.components
  granted : ∀ w ∈ p.workers, w.granted ≤ need w.members
  refused : ∀ w ∈ p.workers, ∀ e, w.refusal = some e →
    e = .resourceExhausted cap ∧ w.granted < need w.members ∧ p.budget.used = cap

theorem sound_start (g : Graph) (need : List NodeId → Nat) (cap : Nat) :
    Sound g need cap (start g cap) where
  capped := rfl
  used := by
    have hzero : ∀ parts : List (List NodeId),
        ((parts.map fun p => ({ members := p } : Worker)).map (·.granted)).sum = 0 := by
      intro parts
      induction parts with
      | nil => rfl
      | cons p parts ih => simpa using ih
    exact (hzero g.components).symm
  fits := Nat.zero_le _
  members := by
    rw [start, List.map_map]
    exact List.map_id _
  granted := by
    intro w hw
    obtain ⟨q, -, rfl⟩ := List.mem_map.1 hw
    exact Nat.zero_le _
  refused := by
    intro w hw e he
    obtain ⟨q, -, rfl⟩ := List.mem_map.1 hw
    cases he

theorem turn_cases (g : Graph) (l : Lattice) (p : Pool) (i : Nat) :
    (p.turn g l i = p ∧ ∀ w, p.workers[i]? = some w → (w.result? g l).isSome) ∨
      ∃ w, p.workers[i]? = some w ∧ w.result? g l = none ∧
        ((p.budget.used < p.budget.cap ∧ p.turn g l i = ⟨⟨p.budget.cap, p.budget.used + 1⟩,
            p.workers.set i { w with granted := w.granted + 1 }⟩) ∨
          (p.budget.cap ≤ p.budget.used ∧ p.turn g l i = ⟨p.budget,
            p.workers.set i { w with refusal := some (.resourceExhausted p.budget.cap) }⟩)) := by
  unfold turn
  cases hw : p.workers[i]? with
  | none => exact .inl ⟨rfl, fun w h => by cases h⟩
  | some w =>
    cases hr : w.result? g l with
    | some r =>
      refine .inl ⟨by simp only [hr], fun w' h => ?_⟩
      cases h
      rw [hr]
      rfl
    | none =>
      refine .inr ⟨w, rfl, hr, ?_⟩
      by_cases hroom : p.budget.used < p.budget.cap
      · exact .inl ⟨hroom, by simp only [hr, Budget.take, if_pos hroom]⟩
      · exact .inr ⟨Nat.le_of_not_lt hroom, by simp only [hr, Budget.take, if_neg hroom]⟩

theorem sum_map_set (f : Worker → Nat) {ws : List Worker} {w : Worker} (w' : Worker)
    (h : ws[i]? = some w) :
    ((ws.set i w').map f).sum + f w = (ws.map f).sum + f w' := by
  induction ws generalizing i with
  | nil => cases h
  | cons x ws ih =>
    cases i with
    | zero =>
      cases h
      simp only [List.set_cons_zero, List.map_cons, List.sum_cons]
      omega
    | succ i =>
      have := ih (i := i) h
      simp only [List.set_cons_succ, List.map_cons, List.sum_cons]
      omega

theorem members_set {ws : List Worker} {w w' : Worker} (h : ws[i]? = some w)
    (hw : w'.members = w.members) : (ws.set i w').map (·.members) = ws.map (·.members) := by
  induction ws generalizing i with
  | nil => cases h
  | cons x ws ih =>
    cases i with
    | zero =>
      cases h
      simp [hw]
    | succ i => simp [ih (i := i) h]

theorem Sound.total_eq (h : Sound g need cap p) :
    total g need = (p.workers.map fun w => need w.members).sum := by
  rw [total, ← h.members, List.map_map]
  rfl

section Needs

variable (hneed : ∀ q ∈ g.components, Takes g l q (need q) (part q))

include hneed

theorem Sound.takes (h : Sound g need cap p) {w : Worker} (hw : w ∈ p.workers) :
    Takes g l w.members (need w.members) (part w.members) :=
  hneed _ (h.members ▸ List.mem_map.2 ⟨w, hw, rfl⟩)

theorem Sound.waiting (h : Sound g need cap p) {w : Worker} (hw : w ∈ p.workers)
    (hr : w.result? g l = none) : w.refusal = none ∧ w.granted < need w.members := by
  cases href : w.refusal with
  | some e => simp [Worker.result?, href] at hr
  | none =>
    rw [result?_of_takes (h.takes hneed hw) href] at hr
    refine ⟨rfl, Nat.lt_of_not_le fun hle => ?_⟩
    rw [if_pos hle] at hr
    cases hr

theorem Sound.turn (h : Sound g need cap p) (i : Nat) : Sound g need cap (p.turn g l i) := by
  rcases turn_cases g l p i with ⟨hsame, -⟩ | ⟨w, hw, hr, hcase⟩
  · rwa [hsame]
  · obtain ⟨href, hlt⟩ := h.waiting hneed (List.mem_of_getElem? hw) hr
    have hused := h.used
    have hcap := h.capped
    have hfits := h.fits
    rcases hcase with ⟨hroom, hturn⟩ | ⟨hfull, hturn⟩
    · rw [hturn]
      have hsum := sum_map_set (·.granted) { w with granted := w.granted + 1 } hw
      refine ⟨hcap, ?_, ?_, ?_, fun w' hw' => ?_, fun w' hw' e he => ?_⟩
      · dsimp only at hsum ⊢
        omega
      · show p.budget.used + 1 ≤ cap
        omega
      · rw [← h.members]
        exact members_set hw rfl
      · rcases List.mem_or_eq_of_mem_set hw' with hw' | rfl
        · exact h.granted w' hw'
        · exact hlt
      · -- a worker that was refused left nothing to grant
        rcases List.mem_or_eq_of_mem_set hw' with hw' | rfl
        · have := (h.refused w' hw' e he).2.2
          omega
        · rw [href] at he
          cases he
    · rw [hturn]
      have hsum := sum_map_set (·.granted)
        { w with refusal := some (.resourceExhausted p.budget.cap) } hw
      refine ⟨hcap, ?_, hfits, ?_, fun w' hw' => ?_, fun w' hw' e he => ?_⟩
      · dsimp only at hsum ⊢
        omega
      · rw [← h.members]
        exact members_set hw rfl
      · rcases List.mem_or_eq_of_mem_set hw' with hw' | rfl
        · exact h.granted w' hw'
        · exact hlt.le
      · rcases List.mem_or_eq_of_mem_set hw' with hw' | rfl
        · exact h.refused w' hw' e he
        · cases he
          rw [hcap]
          refine ⟨rfl, hlt, ?_⟩
          show p.budget.used = cap
          omega

theorem Sound.run (h : Sound g need cap p) (schedule : List Nat) :
    Sound g need cap (p.run g l schedule) := by
  induction schedule generalizing p with
  | nil => exact h
  | cons i schedule ih => exact ih (h.turn hneed i)

theorem Sound.refusal_of_error (h : Sound g need cap p) {w : Worker} (hw : w ∈ p.workers)
    {e : SolveError} (hr : w.result? g l = some (.error e)) :
    e = .resourceExhausted cap ∧ w.granted < need w.members ∧ p.budget.used = cap := by
  cases href : w.refusal with
  | some e' =>
    simp only [Worker.result?, href, Option.some.injEq, Except.error.injEq] at hr
    subst hr
    exact h.refused w hw e' href
  | none =>
    rw [result?_of_takes (h.takes hneed hw) href] at hr
    split at hr <;> cases hr

theorem Sound.of_ok (h : Sound g need cap p) {w : Worker} (hw : w ∈ p.workers) {s : Solution}
    (hr : w.result? g l = some (.ok s)) :
    w.granted = need w.members ∧ s = part w.members := by
  cases href : w.refusal with
  | some e => simp [Worker.result?, href] at hr
  | none =>
    rw [result?_of_takes (h.takes hneed hw) href] at hr
    by_cases hle : need w.members ≤ w.granted
    · rw [if_pos hle] at hr
      cases hr
      exact ⟨Nat.le_antisymm (h.granted w hw) hle, rfl⟩
    · rw [if_neg hle] at hr
      cases hr

/-- Where all workers succeed, the steps taken are those needed, and each found its part. -/
theorem Sound.of_finished (h : Sound g need cap p) {parts : List Solution}
    (hparts : p.workers.map (·.result? g l) = parts.map fun s => some (.ok s)) :
    p.budget.used = total g need ∧ parts = g.components.map part := by
  have hok : ∀ w ∈ p.workers, w.granted = need w.members ∧
      w.result? g l = some (.ok (part w.members)) := by
    intro w hw
    have hmem : w.result? g l ∈ parts.map fun s => some (.ok s) :=
      hparts ▸ List.mem_map.2 ⟨w, hw, rfl⟩
    obtain ⟨s, -, hs⟩ := List.mem_map.1 hmem
    obtain ⟨hgranted, rfl⟩ := h.of_ok hneed hw hs.symm
    exact ⟨hgranted, hs.symm⟩
  constructor
  · rw [h.used, h.total_eq]
    exact congrArg List.sum (List.map_congr_left fun w hw => (hok w hw).1)
  · have hsame : parts.map (fun s => some (Except.ok s)) =
        (g.components.map part).map fun s => (some (.ok s) : Option (Except SolveError _)) := by
      rw [← hparts, ← h.members, List.map_map, List.map_map]
      exact List.map_congr_left fun w hw => (hok w hw).2
    exact List.map_injective_iff.2 (fun s t hst => by simpa using hst) hsame

/-- With a cap that is enough, whatever a pool returns is what the components give. -/
theorem eq_ok_of_le (h : Sound g need cap p) (hcap : total g need ≤ cap)
    (hr : p.Returns g l r) : r = .ok (together g part) := by
  cases hr with
  | finished hparts => rw [(h.of_finished hneed hparts).2, together]
  | @failed w e hw hr =>
    -- a worker that is refused needs more than is left, and no other was granted too much
    obtain ⟨-, hlt, hused⟩ := h.refusal_of_error hneed hw hr
    have hsum : (p.workers.map (·.granted)).sum < (p.workers.map fun w => need w.members).sum :=
      List.sum_lt_sum _ _ h.granted ⟨w, hw, hlt⟩
    rw [← h.used, ← h.total_eq] at hsum
    omega

theorem eq_error_of_lt (h : Sound g need cap p) (hcap : cap < total g need)
    (hr : p.Returns g l r) : r = .error (.resourceExhausted cap) := by
  cases hr with
  | failed hw hr => rw [(h.refusal_of_error hneed hw hr).1]
  | finished hparts =>
    have hused := (h.of_finished hneed hparts).1
    have hfits := h.fits
    omega

end Needs

/-- A worker that has ended stays as it is, and one that has not is granted a step each turn. -/
theorem granted_of_turns (p : Pool) (schedule : List Nat) (turns : Nat → Nat)
    (h : ∀ i w, p.workers[i]? = some w → (w.result? g l).isSome ∨ turns i ≤ w.granted) :
    ∀ i w, (p.run g l schedule).workers[i]? = some w →
      (w.result? g l).isSome ∨ turns i + schedule.count i ≤ w.granted := by
  induction schedule generalizing p turns with
  | nil => simpa [run] using h
  | cons j schedule ih =>
    have hstep : ∀ i w, (p.turn g l j).workers[i]? = some w →
        (w.result? g l).isSome ∨ turns i + (if j = i then 1 else 0) ≤ w.granted := by
      intro i w hw
      rcases turn_cases g l p j with ⟨hsame, hended⟩ | ⟨w₀, hw₀, hr, hcase⟩
      · rw [hsame] at hw
        by_cases hji : j = i
        · subst hji
          exact .inl (hended w hw)
        · rw [if_neg hji]
          exact h i w hw
      · by_cases hji : j = i
        · subst hji
          have hbefore : turns j ≤ w₀.granted := (h j w₀ hw₀).resolve_left (by simp [hr])
          have hlt := (List.getElem?_eq_some_iff.1 hw₀).1
          rw [if_pos rfl]
          rcases hcase with ⟨-, hturn⟩ | ⟨-, hturn⟩
          · rw [hturn, List.getElem?_set_self hlt] at hw
            cases hw
            exact .inr (Nat.succ_le_succ hbefore)
          · rw [hturn, List.getElem?_set_self hlt] at hw
            cases hw
            exact .inl rfl
        · rw [if_neg hji]
          refine h i w ?_
          rcases hcase with ⟨-, hturn⟩ | ⟨-, hturn⟩
          · rwa [hturn, List.getElem?_set_ne hji] at hw
          · rwa [hturn, List.getElem?_set_ne hji] at hw
    intro i w hw
    refine (ih (p.turn g l j) _ hstep i w hw).imp id fun hle => ?_
    rw [List.count_cons]
    simp only [beq_iff_eq]
    omega

/-- A schedule that gives every worker as many turns as there are steps to take ends the pool. -/
theorem exists_returns (hneed : ∀ q ∈ g.components, Takes g l q (need q) (part q)) (cap : Nat)
    (hturns : ∀ i < g.components.length, total g need ≤ schedule.count i) :
    ∃ r, ((start g cap).run g l schedule).Returns g l r := by
  have hsound := (sound_start g need cap).run hneed schedule
  have hgranted := granted_of_turns (g := g) (l := l) (start g cap) schedule (fun _ => 0)
    fun _ _ _ => .inr (Nat.zero_le _)
  generalize (start g cap).run g l schedule = p at hsound hgranted ⊢
  have hended : ∀ w ∈ p.workers, (w.result? g l).isSome := by
    intro w hw
    obtain ⟨i, hi⟩ := List.getElem?_of_mem hw
    rcases hgranted i w hi with hsome | hle
    · exact hsome
    · have hlength : p.workers.length = g.components.length := by
        rw [← hsound.members, List.length_map]
      have hcount := hturns i (hlength ▸ (List.getElem?_eq_some_iff.1 hi).1)
      have hone : need w.members ≤ total g need := by
        rw [hsound.total_eq]
        exact List.single_le_sum (by simp) _ (List.mem_map.2 ⟨w, hw, rfl⟩)
      cases href : w.refusal with
      | some e => simp [Worker.result?, href]
      | none =>
        rw [result?_of_takes (hsound.takes hneed hw) href, if_pos (by omega)]
        rfl
  by_cases herr : ∃ w ∈ p.workers, ∃ e, w.result? g l = some (.error e)
  · obtain ⟨w, hw, e, he⟩ := herr
    exact ⟨_, .failed hw he⟩
  · have hparts : p.workers.map (·.result? g l) =
        (p.workers.map fun w => part w.members).map fun s => some (.ok s) := by
      rw [List.map_map]
      refine List.map_congr_left fun w hw => ?_
      obtain ⟨r, hr⟩ := Option.isSome_iff_exists.1 (hended w hw)
      cases r with
      | error e => exact absurd ⟨w, hw, e, hr⟩ herr
      | ok s => rw [hr, (hsound.of_ok hneed hw hr).2, Function.comp_apply]
    exact ⟨_, .finished hparts⟩

end Pool

/--
The cap alone decides how components that share a budget end. With at least `n` steps every schedule
that ends gives the solution; with fewer every schedule that ends gives the error that names the
cap. Schedules end once each component has had its turns, and solving the components one after
another does the same.
-/
structure ScheduleFree (g : Graph) (l : Lattice) (n : Nat) (s : Solution) : Prop where
  enough : ∀ cap schedule r, n ≤ cap → ((Pool.start g cap).run g l schedule).Returns g l r →
    r = .ok s
  short : ∀ cap schedule r, cap < n → ((Pool.start g cap).run g l schedule).Returns g l r →
    r = .error (.resourceExhausted cap)
  ends : ∀ cap schedule, (∀ i < g.components.length, n ≤ schedule.count i) →
    ∃ r, ((Pool.start g cap).run g l schedule).Returns g l r
  alike : ∀ (settings : SolverSettings) cap,
    settings.stepCap g.nodes.size g.edges.size l.size = .ok cap →
    g.solve l settings = if n ≤ cap then .ok s else .error (.resourceExhausted cap)

namespace Graph

open Spread

variable {g : Graph} {l : Lattice}

theorem scheduleFree_of_takes {need : List NodeId → Nat} {part : List NodeId → Solution}
    (h : ∀ q ∈ g.components, Takes g l q (need q) (part q)) :
    ScheduleFree g l (total g need) (together g part) where
  enough cap schedule _ hcap :=
    Pool.eq_ok_of_le h ((Pool.sound_start g need cap).run h schedule) hcap
  short cap schedule _ hcap :=
    Pool.eq_error_of_lt h ((Pool.sound_start g need cap).run h schedule) hcap
  ends cap _ := Pool.exists_returns h cap
  alike settings cap hcap := by
    rw [solve_eq hcap, runAll_of_takes h (Nat.zero_le _)]
    change ((Budget.pay ⟨cap, 0⟩ (total g need)).map fun b => (together g part, b)).map (·.1) = _
    by_cases hle : total g need ≤ cap
    · rw [Budget.pay_eq_ok.2 ⟨by simpa using hle, rfl⟩, if_pos hle]
      rfl
    · rw [Budget.pay_eq_error.2 ⟨by simpa using hle, rfl⟩, if_neg hle]
      rfl

theorem exists_runCourse (hl : l.Lawful) (hg : g.Over l) (hcl : g.Closed) {q : List NodeId}
    (hq : q ∈ g.components) :
    ∃ n r, RunCourse g l q n r ∧ (∀ c, r = .error c → word32 ≤ 2 * g.nodes.size) := by
  have hends : ∀ cap, (q.map (memberSteps g l)).sum ≤ cap →
      Ends _ (Fails g cap True) (run g l q { cap }) := fun cap hcap =>
    run_ends hl hg hcl (fun e he => (edge_within_component hcl hq he).1)
      (nodup_of_mem_components hcl hq) (Nat.zero_le _) fun _ => by simpa using hcap
  obtain ⟨n, r, hcourse⟩ : ∃ n r, RunCourse g l q n r := by
    refine exists_course (b := ⟨(q.map (memberSteps g l)).sum, 0⟩) (Nat.zero_le _) ?_
    intro cap hcap
    have := hends _ (Nat.le_refl _)
    rw [hcap] at this
    exact this.2 trivial
  refine ⟨n, r, hcourse, fun c hc => ?_⟩
  subst hc
  have hfails := hends (n + (q.map (memberSteps g l)).sum) (Nat.le_add_left _ _)
  rw [run_of_course hcourse (Nat.zero_le _), Budget.pay_eq_ok.2 ⟨by simp, rfl⟩] at hfails
  exact hfails

/--
The answer depends neither on the order in which components take their steps nor on a cap that is
enough. Only where a component is so large that a distance in it does not fit its word is there no
such answer, on any budget.
-/
theorem schedule_independent {names : List String} {spec : LatticeSpec}
    (hl : Lattice.build names spec = .ok l) (hcl : g.Closed) (hg : g.Over l) :
    (∃ need part, (∀ q ∈ g.components, Takes g l q (need q) (part q)) ∧
        ScheduleFree g l (total g need) (together g part)) ∨
      (word32 ≤ 2 * g.nodes.size ∧ ∃ q ∈ g.components, ∃ n, ∀ cap, n ≤ cap →
        run g l q { cap } = .error (.overflow .add)) := by
  by_cases hall : ∀ q ∈ g.components, ∃ n s, Takes g l q n s
  · have : Nonempty Solution := ⟨{}⟩
    choose! need part htakes using hall
    exact .inl ⟨need, part, htakes, scheduleFree_of_takes htakes⟩
  · push Not at hall
    obtain ⟨q, hq, hnone⟩ := hall
    obtain ⟨n, r, hcourse, hlarge⟩ := exists_runCourse (Lattice.build_lawful hl) hg hcl hq
    cases r with
    | ok f => exact absurd (takes_of_course hcourse) (hnone n f.solution)
    | error c =>
      refine .inr ⟨hlarge c rfl, q, hq, n, fun cap hcap => ?_⟩
      rw [run_of_course hcourse (Nat.zero_le _), Budget.pay_eq_ok.2 ⟨by simpa using hcap, rfl⟩]
      cases c
      rfl

/-- Three workers that ask in turn, the last component first. -/
def inTurn : List Nat := (List.replicate 10 [2, 1, 0]).flatten

theorem schedule_independent_scattered :
    ∃ (names : List String) (l : Lattice) (g : Graph) (s : Solution),
      Lattice.build names scatteredLevels = .ok l ∧ g.Closed ∧ g.Over l ∧
      g.components.length = 3 ∧ ScheduleFree g l 10 s ∧
      ((Pool.start g 10).run g l inTurn).Returns g l (.ok s) ∧
      ((Pool.start g 9).run g l inTurn).Returns g l (.error (.resourceExhausted 9)) := by
  have hrun : (Analysis.prepare { lattice := scatteredLevels } scattered).toOption.any (fun r =>
      r.toOption.any fun p => p.graph.components.length = 3 && p.graph.nodes.size = 8 &&
        (runAll p.graph p.lattice { cap := 12 } p.graph.components).toOption.any fun r =>
          r.2 = ⟨12, 10⟩) = true := by decide +kernel
  obtain ⟨r, hp, hr⟩ := exists_ok_of_any hrun
  obtain ⟨p, rfl, hcheck⟩ := exists_ok_of_any hr
  obtain ⟨hcheck, hsteps⟩ := Bool.and_eq_true_iff.1 hcheck
  obtain ⟨hlength, hsize⟩ := Bool.and_eq_true_iff.1 hcheck
  have hlength := of_decide_eq_true hlength
  have hsize := of_decide_eq_true hsize
  obtain ⟨⟨t, b⟩, ht, hbudget⟩ := exists_ok_of_any hsteps
  have hbudget : b = ⟨12, 10⟩ := of_decide_eq_true hbudget
  subst hbudget
  have hvalid := Analysis.valid_of_prepare hp
  have hlattice := (Analysis.prepare_eq_ok hp).1
  rcases schedule_independent hlattice hvalid.closed hvalid.labels with
    ⟨need, part, htakes, hfree⟩ | ⟨hlarge, -⟩
  · have htotal : total p.graph need = 10 := by
      rw [runAll_of_takes htakes (Nat.zero_le _)] at ht
      cases hpay : Budget.pay ⟨12, 0⟩ (p.graph.components.map need).sum with
      | error e =>
        rw [hpay] at ht
        cases ht
      | ok b' =>
        rw [hpay] at ht
        cases ht
        obtain ⟨-, hused⟩ := Budget.pay_eq_ok.1 hpay
        simpa [total] using (congrArg Budget.used hused).symm
    rw [htotal] at hfree
    have hturns : ∀ i < p.graph.components.length, 10 ≤ inTurn.count i := by
      rw [hlength]
      decide
    obtain ⟨r₁, hr₁⟩ := hfree.ends 10 inTurn hturns
    obtain ⟨r₂, hr₂⟩ := hfree.ends 9 inTurn hturns
    exact ⟨_, p.lattice, p.graph, _, hlattice, hvalid.closed, hvalid.labels, hlength, hfree,
      hfree.enough 10 inTurn r₁ (by decide) hr₁ ▸ hr₁,
      hfree.short 9 inTurn r₂ (by decide) hr₂ ▸ hr₂⟩
  · rw [hsize] at hlarge
    exact absurd hlarge (by decide)

end Graph

end Enclave
