import Enclave.Proofs.Arrival

/-!
# Enclave.Proofs.Metering

The budget of a spread says how far it may go and nothing else. Every function of a spread takes a
number of steps that its flow alone decides, and ends in a flow, or in an overflow, that its flow
alone decides; with a smaller budget it stops before the end. `Course` says this of a computation.

* `rounds_of_le`, `drained_rounds`: the bound on the rounds of a run is never what ends them.
* `run_of_course`: a run takes a fixed number of steps, whatever the budget, or fails for lack of
  them.
* `exists_course`: a run that did not fail for lack of steps shows what that number is.
-/

namespace Enclave

attribute [local instance] lexOrd

namespace Budget

variable {b b' : Budget} {m n : Nat}

def pay (b : Budget) (n : Nat) : Except SolveError Budget :=
  if b.used + n ≤ b.cap then .ok { b with used := b.used + n }
  else .error (.resourceExhausted b.cap)

theorem take_eq_pay (b : Budget) : b.take = b.pay 1 := rfl

theorem pay_zero (h : b.used ≤ b.cap) : b.pay 0 = .ok b := by
  unfold pay
  rw [if_pos (show b.used + 0 ≤ b.cap from h)]
  rfl

theorem pay_eq_ok : b.pay n = .ok b' ↔ b.used + n ≤ b.cap ∧ b' = ⟨b.cap, b.used + n⟩ := by
  unfold pay
  by_cases h : b.used + n ≤ b.cap
  · simp [h, eq_comm]
  · simp [h]

theorem pay_eq_error {e : SolveError} :
    b.pay n = .error e ↔ b.cap < b.used + n ∧ e = .resourceExhausted b.cap := by
  unfold pay
  by_cases h : b.used + n ≤ b.cap
  · have hnot : ¬ b.cap < b.used + n := by omega
    simp [h, hnot]
  · have hlt : b.cap < b.used + n := by omega
    simp [h, hlt, eq_comm]

theorem pay_add (b : Budget) (m n : Nat) : b.pay (m + n) = (do (← b.pay m).pay n) := by
  cases hm : b.pay m with
  | error e =>
    obtain ⟨hlt, rfl⟩ := pay_eq_error.1 hm
    exact pay_eq_error.2 ⟨by omega, rfl⟩
  | ok b₁ =>
    obtain ⟨-, rfl⟩ := pay_eq_ok.1 hm
    show b.pay (m + n) = pay ⟨b.cap, b.used + m⟩ n
    simp only [pay, Nat.add_assoc]

theorem fits_of_pay (h : b.pay n = .ok b') : b'.used ≤ b'.cap := by
  obtain ⟨hle, rfl⟩ := pay_eq_ok.1 h
  exact hle

end Budget

namespace Flow

def on (s : Flow) (b : Budget) : Flow := { s with budget := b }

@[simp] theorem budget_on (s : Flow) (b : Budget) : (s.on b).budget = b := rfl

@[simp] theorem on_on (s : Flow) (b b' : Budget) : (s.on b).on b' = s.on b' := rfl

@[simp] theorem on_budget (s : Flow) : s.on s.budget = s := rfl

@[simp] theorem factsOf_on (s : Flow) (b : Budget) (v : NodeId) :
    (s.on b).factsOf v = s.factsOf v := rfl

@[simp] theorem pending_on (s : Flow) (b : Budget) : (s.on b).pending = s.pending := rfl

/-- A flow in which nothing is known. -/
def blank : Flow := { budget := ⟨0, 0⟩ }

end Flow

namespace Spread

open Enclave.Flow

variable {g : Graph} {l : Lattice} {members : List NodeId} {s s' : Flow} {v : NodeId} {a : Level}
  {o : Origin} {kind : ConflictKind} {m n : Nat} {r r' : Except Overflow Flow} {b : Budget}
  {x : Budget → Except SolveError Flow} {f f' : Flow → Except SolveError Flow}

/-- How a computation ends once its steps are paid for. -/
def outcome (r : Except Overflow Flow) (b : Budget) : Except SolveError Flow :=
  match r with
  | .ok s => .ok (s.on b)
  | .error c => .error (.overflow c)

/-- On every budget the computation takes `n` steps and then ends in `r`. -/
def Course (x : Budget → Except SolveError Flow) (n : Nat) (r : Except Overflow Flow) : Prop :=
  ∀ b : Budget, b.used ≤ b.cap → x b = (do outcome r (← b.pay n))

theorem Course.ok (s : Flow) : Course (fun b => .ok (s.on b)) 0 (.ok s) := by
  intro b hb
  rw [Budget.pay_zero hb]
  rfl

theorem Course.error (c : Overflow) : Course (fun _ => .error (.overflow c)) 0 (.error c) := by
  intro b hb
  rw [Budget.pay_zero hb]
  rfl

theorem Course.bind (h : Course x n (.ok s)) (h' : Course (fun b => f (s.on b)) m r) :
    Course (fun b => x b >>= f) (n + m) r := by
  intro b hb
  dsimp only
  rw [h b hb, Budget.pay_add]
  cases hpay : b.pay n with
  | error e => rfl
  | ok b₁ => exact h' b₁ (Budget.fits_of_pay hpay)

theorem Course.bind_error {c : Overflow} (h : Course x n (.error c)) :
    Course (fun b => x b >>= f) n (.error c) := by
  intro b hb
  dsimp only
  rw [h b hb]
  cases b.pay n <;> rfl

theorem Course.take (h : Course (fun b => f (s.on b)) n r) :
    Course (fun b => (s.on b).take >>= f) (1 + n) r := by
  have hstep : Course (fun b => (s.on b).take) 1 (.ok s) := by
    intro b _
    show (b.take >>= fun b' => pure ((s.on b).on b')) = _
    rw [Budget.take_eq_pay]
    rfl
  exact hstep.bind h

/-- What a computation with a course gives on a budget that is large enough. -/
theorem Course.eq_of_le (h : Course x n r) (hle : b.used + n ≤ b.cap) :
    x b = outcome r ⟨b.cap, b.used + n⟩ := by
  rw [h b (by omega), Budget.pay_eq_ok.2 ⟨hle, rfl⟩]
  rfl

theorem Course.unique (h : Course x n (.ok s)) (h' : Course x m r) :
    n = m ∧ ∃ b, r = .ok (s.on b) := by
  have hx := h.eq_of_le (b := ⟨n + m, 0⟩) (by simp)
  have hx' := h'.eq_of_le (b := ⟨n + m, 0⟩) (by simp)
  rw [hx] at hx'
  cases r with
  | error c => cases hx'
  | ok s' =>
    have hflow : s.on ⟨n + m, 0 + n⟩ = s'.on ⟨n + m, 0 + m⟩ := Except.ok.inj hx'
    have hused := congrArg (·.budget.used) hflow
    simp only [budget_on, Nat.zero_add] at hused
    have hsame := congrArg (·.on s'.budget) hflow
    simp only [on_on, on_budget] at hsame
    exact ⟨hused, s'.budget, by rw [hsame]⟩

/--
The function has a course from the flow. One that takes no step leaves pending what was pending.
-/
def Metered (f : Flow → Except SolveError Flow) (s : Flow) : Prop :=
  ∃ n r, Course (fun b => f (s.on b)) n r ∧ (n = 0 → ∀ s', r = .ok s' → s'.pending = s.pending)

theorem metered_ok (s : Flow) : Metered .ok s :=
  ⟨0, .ok s, Course.ok s, fun _ s' h => by cases h; rfl⟩

theorem Metered.of_pos (h : Course (fun b => f (s.on b)) n r) (hn : n ≠ 0) : Metered f s :=
  ⟨n, r, h, fun h₀ => absurd h₀ hn⟩

theorem Metered.bind (h : Metered f s) (h' : ∀ s', Metered f' s') :
    Metered (fun s => f s >>= f') s := by
  obtain ⟨n, r, hf, hidle⟩ := h
  cases r with
  | error c => exact ⟨n, .error c, hf.bind_error, fun _ s' h => by cases h⟩
  | ok s₁ =>
    obtain ⟨m, r, hf', hidle'⟩ := h' s₁
    refine ⟨n + m, r, hf.bind hf', fun h₀ s' hs' => ?_⟩
    rw [hidle' (by omega) s' hs', hidle (by omega) s₁ rfl]

theorem Metered.foldlM {β : Type} {f : Flow → β → Except SolveError Flow}
    (h : ∀ x s, Metered (f · x) s) (xs : List β) (s : Flow) :
    Metered (fun s => xs.foldlM f s) s := by
  induction xs generalizing s with
  | nil => exact metered_ok s
  | cons x xs ih => exact (h x s).bind fun s' => ih s'

/-! ## The functions of a spread -/

theorem arriveWithin_on (k : Nat) (s : Flow) (a : Level) (o : Origin) (b : Budget) :
    arriveWithin g l v kind k (s.on b) a o = (arriveWithin g l v kind k s a o).map (·.on b) := by
  induction k generalizing s a o with
  | zero => rfl
  | succ k ih =>
    rw [arriveWithin, arriveWithin, factsOf_on]
    cases hget : (s.factsOf v).levels.get? a with
    | some known =>
      simp only [improve, factsOf_on]
      split <;> rfl
    | none =>
      dsimp only
      rw [settle_eq, settle_eq, factsOf_on]
      cases hws : s.witnesses.recordAll (evidence g l (s.factsOf v) v a o kind) with
      | error c =>
        rw [show (s.on b).witnesses = s.witnesses from rfl, hws]
        rfl
      | ok ws =>
        rw [show (s.on b).witnesses = s.witnesses from rfl, hws]
        cases hr : (s.factsOf v).raised? l a o with
        | none => rfl
        | some c => exact ih (settled l s v a o ws) c (.start v)

theorem arrive_course (s : Flow) (v : NodeId) (a : Level) (o : Origin) (via : Option Kinds) :
    Course (fun b => arrive g l (s.on b) v a o via) 0
      (arriveWithin g l v (kindOf via) (l.size + 1) s a o) := by
  intro b hb
  rw [Budget.pay_zero hb]
  show (arriveWithin g l v (kindOf via) (l.size + 1) (s.on b) a o).mapError _ = _
  rw [arriveWithin_on]
  cases arriveWithin g l v (kindOf via) (l.size + 1) s a o <;> rfl

theorem deliver_metered (e : Edge × EdgeId) (s : Flow) : Metered (deliver g l a o · e) s := by
  cases hstep : o.step with
  | error c =>
    have heq : ∀ s, deliver g l a o s e = .error (.overflow c) := by
      intro s
      rw [deliver, hstep]
      rfl
    refine ⟨0, .error c, ?_, fun _ s' h => by cases h⟩
    simp only [heq]
    exact Course.error c
  | ok next =>
    by_cases hadm : admits g e.1 a = true
    · have heq : ∀ s, deliver g l a o s e = (do .ok (← s.take)) := by
        intro s
        rw [deliver, hstep]
        simp only [hadm, if_true]
        rfl
      simp only [heq]
      exact .of_pos (Course.take (Course.ok s)) (by omega)
    · have heq : ∀ s, deliver g l a o s e = (do
          let s ← s.take
          arrive g l { s with carried := s.carried.insert (e.2, a) } e.1.target a next
            (some e.1.kinds)) := by
        intro s
        rw [deliver, hstep]
        simp only [hadm]
        rfl
      simp only [heq]
      exact .of_pos (Course.take (arrive_course { s with carried := s.carried.insert (e.2, a) }
        e.1.target a next _)) (by omega)

theorem plant_metered (v : NodeId) (s : Flow) : Metered (plant g l · v) s := by
  cases hseed : g.nodes[v]?.bind (·.seed?) with
  | none =>
    have heq : ∀ s, plant g l s v = .ok s := by
      intro s
      rw [plant, hseed]
    simp only [heq]
    exact metered_ok s
  | some a =>
    have heq : ∀ s, plant g l s v = (do arrive g l (← s.take) v a (.start v) none) := by
      intro s
      rw [plant, hseed]
    simp only [heq]
    exact .of_pos (Course.take (arrive_course s v a (.start v) none)) (by omega)

theorem sendReturn_metered (v : NodeId) (s : Flow) : Metered (sendReturn g l · v) s := by
  cases hret : g.nodes[v]?.bind (·.singleReturn?) with
  | none =>
    have heq : ∀ s, sendReturn g l s v = .ok s := by
      intro s
      rw [sendReturn, hret]
    simp only [heq]
    exact metered_ok s
  | some a =>
    have heq : ∀ s, sendReturn g l s v =
        (returnEdges g v).foldlM (deliver g l a (.start v)) s := by
      intro s
      rw [sendReturn, hret]
    simp only [heq]
    exact Metered.foldlM deliver_metered _ s

theorem forward_metered (p : NodeId × Level) (s : Flow) : Metered (forward g l · p) s := by
  unfold Metered
  simp only [forward, factsOf_on]
  cases hget : (s.factsOf p.1).levels.get? p.2 with
  | none => exact metered_ok s
  | some o => exact Metered.foldlM deliver_metered (onwardEdges g p.1) s

/-- A round that takes no step leaves nothing pending. -/
theorem round_course (g : Graph) (l : Lattice) (s : Flow) :
    ∃ n r, Course (fun b => round g l (s.on b)) n r ∧
      (n = 0 → ∀ s', r = .ok s' → s'.pending = ∅) :=
  Metered.foldlM forward_metered s.pending.toList { s with pending := ∅ }

theorem rounds_succ_of_pending {k : Nat} (h : s.pending.isEmpty = false) :
    rounds g l (k + 1) s = (do rounds g l k (← round g l s)) := by
  simp [rounds, h]

theorem rounds_of_isEmpty {k : Nat} (h : s.pending.isEmpty = true) : rounds g l k s = .ok s := by
  cases k with
  | zero => rfl
  | succ k => simp [rounds, h]

theorem rounds_course (g : Graph) (l : Lattice) (k : Nat) (s : Flow) :
    ∃ n r, Course (fun b => rounds g l k (s.on b)) n r := by
  induction k generalizing s with
  | zero => exact ⟨0, .ok s, Course.ok s⟩
  | succ k ih =>
    cases hempty : s.pending.isEmpty with
    | true =>
      have heq : ∀ b, rounds g l (k + 1) (s.on b) = .ok (s.on b) :=
        fun b => rounds_of_isEmpty hempty
      simp only [heq]
      exact ⟨0, .ok s, Course.ok s⟩
    | false =>
      have heq : ∀ b, rounds g l (k + 1) (s.on b) = (do rounds g l k (← round g l (s.on b))) :=
        fun b => rounds_succ_of_pending hempty
      simp only [heq]
      obtain ⟨n, r, hround, -⟩ := round_course g l s
      cases r with
      | error c => exact ⟨n, .error c, hround.bind_error⟩
      | ok s₁ =>
        obtain ⟨m, r, hrest⟩ := ih s₁
        exact ⟨n + m, r, hround.bind hrest⟩

theorem launch_course (g : Graph) (l : Lattice) (members : List NodeId) :
    ∃ n r, Course (launch g l members) n r := by
  obtain ⟨n, r, h, -⟩ := (Metered.foldlM (plant_metered (g := g) (l := l)) members blank).bind
    fun s => Metered.foldlM sendReturn_metered members s
  exact ⟨n, r, h⟩

theorem fits_of_launch (hb : b.used ≤ b.cap) (h : launch g l members b = .ok s) :
    s.budget.used ≤ s.budget.cap := by
  obtain ⟨n, r, hlaunch⟩ := launch_course g l members
  have hvalue := hlaunch b hb
  rw [h] at hvalue
  obtain ⟨b₁, hpay, hout⟩ := bind_eq_ok.1 hvalue.symm
  cases r with
  | error c => cases hout
  | ok s₁ =>
    cases hout
    exact Budget.fits_of_pay hpay

/-! ## The bound on the rounds -/

/-- Nothing is left to do: the rounds failed, or nothing is pending. -/
def Drained : Except SolveError Flow → Prop
  | .ok s => s.pending.isEmpty = true
  | .error _ => True

theorem rounds_succ_of_drained {k : Nat} (h : Drained (rounds g l k s)) :
    rounds g l (k + 1) s = rounds g l k s := by
  induction k generalizing s with
  | zero => exact rounds_of_isEmpty h
  | succ k ih =>
    cases hempty : s.pending.isEmpty with
    | true => rw [rounds_of_isEmpty hempty, rounds_of_isEmpty hempty]
    | false =>
      rw [rounds_succ_of_pending hempty] at h ⊢
      rw [rounds_succ_of_pending hempty]
      cases hround : round g l s with
      | error e => rfl
      | ok s₁ =>
        rw [hround] at h
        exact ih h

theorem rounds_of_le {k k' : Nat} (hle : k ≤ k') (h : Drained (rounds g l k s)) :
    rounds g l k' s = rounds g l k s := by
  induction hle with
  | refl => rfl
  | step _ ih => rw [rounds_succ_of_drained (by rwa [ih]), ih]

/-- As many rounds as there are steps left, and two, are enough. -/
theorem drained_rounds {k : Nat} (hb : b.used ≤ b.cap) (hk : b.left + 2 ≤ k) :
    Drained (rounds g l k (s.on b)) := by
  induction k generalizing s b with
  | zero => omega
  | succ k ih =>
    cases hempty : s.pending.isEmpty with
    | true =>
      rw [rounds_of_isEmpty (show (s.on b).pending.isEmpty = true from hempty)]
      exact hempty
    | false =>
      rw [rounds_succ_of_pending (show (s.on b).pending.isEmpty = false from hempty)]
      obtain ⟨n, r, hround, hidle⟩ := round_course g l s
      have hround := hround b hb
      dsimp only at hround
      rw [hround]
      cases hpay : b.pay n with
      | error e => trivial
      | ok b₁ =>
        cases r with
        | error c => trivial
        | ok s₁ =>
          show Drained (rounds g l k (s₁.on b₁))
          obtain ⟨hle, rfl⟩ := Budget.pay_eq_ok.1 hpay
          unfold Budget.left at hk
          by_cases hn : n = 0
          · -- a round without a step was the last
            have hdone : (s₁.on ⟨b.cap, b.used + n⟩).pending.isEmpty = true := by
              rw [pending_on, hidle hn s₁ rfl]
              rfl
            rw [rounds_of_isEmpty hdone]
            exact hdone
          · refine ih hle ?_
            unfold Budget.left
            simp only
            omega

/-! ## Whole runs -/

/--
The run over the members takes `n` steps and ends in `r`: some number of rounds settles it, and with
that number it has this course.
-/
def RunCourse (g : Graph) (l : Lattice) (members : List NodeId) (n : Nat)
    (r : Except Overflow Flow) : Prop :=
  (∀ s, r = .ok s → s.pending.isEmpty = true) ∧
    ∃ k, Course (fun b => launch g l members b >>= rounds g l k) n r

/-- What a run gives once its steps are paid for. -/
def report (r : Except Overflow Flow) (b : Budget) : Except SolveError (Solution × Budget) :=
  match r with
  | .ok s => .ok (s.solution, b)
  | .error c => .error (.overflow c)

theorem drained_of_course {k : Nat} (hdone : ∀ s, r = .ok s → s.pending.isEmpty = true)
    (h : Course (fun b => launch g l members b >>= rounds g l k) n r) (hb : b.used ≤ b.cap) :
    Drained (launch g l members b >>= rounds g l k) := by
  have hvalue := h b hb
  dsimp only at hvalue
  rw [hvalue]
  cases b.pay n with
  | error e => trivial
  | ok b₁ =>
    cases r with
    | error c => trivial
    | ok s => exact hdone s rfl

theorem course_of_le {k k' : Nat} (hle : k ≤ k')
    (hdone : ∀ s, r = .ok s → s.pending.isEmpty = true)
    (h : Course (fun b => launch g l members b >>= rounds g l k) n r) :
    Course (fun b => launch g l members b >>= rounds g l k') n r := by
  intro b hb
  have hdrained := drained_of_course hdone h hb
  rw [← h b hb]
  dsimp only
  cases hs : launch g l members b with
  | error e => rfl
  | ok s₁ =>
    rw [hs] at hdrained
    exact rounds_of_le hle hdrained

theorem run_of_course (h : RunCourse g l members n r) (hb : b.used ≤ b.cap) :
    run g l members b = (do report r (← b.pay n)) := by
  obtain ⟨hdone, k, hcourse⟩ := h
  have hvalue := hcourse b hb
  dsimp only at hvalue
  have hdrained := drained_of_course hdone hcourse hb
  -- the rounds of the run are as many as settle it, or more
  have hsame : run g l members b = (do
      let s ← launch g l members b >>= rounds g l k
      pure (s.solution, s.budget)) := by
    unfold run
    cases hs : launch g l members b with
    | error e => rfl
    | ok s₁ =>
      rw [hs] at hdrained
      have hbudget := fits_of_launch hb hs
      have hrounds : rounds g l (s₁.budget.left + 2) s₁ = rounds g l k s₁ := by
        rcases Nat.le_total k (s₁.budget.left + 2) with hle | hle
        · exact rounds_of_le hle hdrained
        · exact (rounds_of_le hle (drained_rounds (s := s₁) hbudget (Nat.le_refl _))).symm
      show (rounds g l (s₁.budget.left + 2) s₁ >>= _) = (rounds g l k s₁ >>= _)
      rw [hrounds]
  rw [hsame, hvalue]
  cases b.pay n with
  | error e => rfl
  | ok b₁ => cases r <;> rfl

/-- A run that does not fail for lack of steps has a course. -/
theorem exists_course (hb : b.used ≤ b.cap)
    (h : ∀ cap, run g l members b ≠ .error (.resourceExhausted cap)) :
    ∃ n r, RunCourse g l members n r := by
  obtain ⟨n₁, r₁, hlaunch⟩ := launch_course g l members
  cases r₁ with
  | error c =>
    refine ⟨n₁, .error c, fun s hs => ?_, 0, hlaunch.bind_error⟩
    cases hs
  | ok s₁ =>
    have hvalue := hlaunch b hb
    cases hpay : b.pay n₁ with
    | error e =>
      obtain ⟨-, rfl⟩ := Budget.pay_eq_error.1 hpay
      refine absurd ?_ (h b.cap)
      rw [run, hvalue, hpay]
      rfl
    | ok b₁ =>
      have hb₁ := Budget.fits_of_pay hpay
      obtain ⟨n₂, r₂, hrounds⟩ := rounds_course g l (b₁.left + 2) s₁
      refine ⟨n₁ + n₂, r₂, fun s₂ hs₂ => ?_, b₁.left + 2, hlaunch.bind hrounds⟩
      subst hs₂
      have hdrained := drained_rounds (g := g) (l := l) (s := s₁) hb₁ (Nat.le_refl _)
      have hrounds := hrounds b₁ hb₁
      dsimp only at hrounds
      cases hpay₂ : b₁.pay n₂ with
      | ok b₂ =>
        rw [hrounds, hpay₂] at hdrained
        exact hdrained
      | error e =>
        obtain ⟨-, rfl⟩ := Budget.pay_eq_error.1 hpay₂
        refine absurd ?_ (h b₁.cap)
        rw [run, hvalue, hpay]
        show (rounds g l (b₁.left + 2) (s₁.on b₁) >>= _) = _
        rw [hrounds, hpay₂]
        rfl

theorem run_eq_ok {sol : Solution} {b' : Budget} (hb : b.used ≤ b.cap) :
    run g l members b = .ok (sol, b') ↔
      ∃ n s, RunCourse g l members n (.ok s) ∧ b.pay n = .ok b' ∧ sol = s.solution := by
  constructor
  · intro h
    obtain ⟨n, r, hcourse⟩ := exists_course hb fun cap hcap => by
      rw [h] at hcap
      cases hcap
    rw [run_of_course hcourse hb] at h
    obtain ⟨b₁, hpay, h⟩ := bind_eq_ok.1 h
    cases r with
    | error c => cases h
    | ok s =>
      cases h
      exact ⟨n, s, hcourse, hpay, rfl⟩
  · rintro ⟨n, s, hcourse, hpay, rfl⟩
    rw [run_of_course hcourse hb, hpay]
    rfl

end Spread

end Enclave
