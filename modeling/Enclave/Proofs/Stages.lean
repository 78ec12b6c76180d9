import Enclave.Proofs.Evidence
import Enclave.Proofs.Metering
import Mathlib.Logic.Relation

/-!
# Enclave.Proofs.Stages

A run of a spread, taken apart into the flows between one arrival and the next. A `Stage` is a flow
together with what the run has still to do and the deliveries it has made; `Stage.Step` does the
next thing, and `Stage.Stops` says where that fails.

* `run_stages`: what a run gives stands at a stage where nothing is left to do, and an error of a
  run at a stage that stops. The bound on the rounds has no part in this.
* `Stage.Sound`: what every stage keeps. `Advances` is all that one step can do to a flow.
* `distances_bounded`: at every stage the distance of a level is at most the number of nodes that
  hold it, and in a graph of fewer than half as many nodes as a word has values none overflows.
-/

namespace Enclave

attribute [local instance] lexOrd

/-- Nothing but steps and travelled edges is noted. -/
structure Flow.Notes (s s' : Flow) : Prop where
  facts : s'.facts = s.facts
  witnesses : s'.witnesses = s.witnesses
  pending : s'.pending = s.pending
  carried : ∀ p ∈ s.carried.toList, p ∈ s'.carried.toList

namespace Spread

open NodeFacts Enclave.Flow

/-- A level that is to travel along an edge. -/
structure Delivery where
  level : Level
  origin : Origin
  edge : Edge × EdgeId

/-- What a run has still to do, apart from the deliveries of the task under way. -/
inductive Task where
  | plant (v : NodeId)
  | sendReturn (v : NodeId)
  | forward (fact : NodeId × Level)
  | round

/-- A run under way. -/
structure Stage where
  flow : Flow
  /-- What is to be delivered before the next task. -/
  sending : List Delivery
  tasks : List Task
  /-- The deliveries made, last first: each edge with the level. -/
  log : List (EdgeId × Level)

namespace Stage

def start (members : List NodeId) (budget : Budget) : Stage where
  flow := { budget }
  sending := []
  tasks := members.map .plant ++ (members.map .sendReturn ++ [.round])
  log := []

/-- The next thing is done: a delivery, or the task whose turn it is. -/
inductive Step (g : Graph) (l : Lattice) : Stage → Stage → Prop
  | deliver {s s' : Flow} {a : Level} {o : Origin} {e : Edge × EdgeId} {ds : List Delivery}
      {ts : List Task} {log : List (EdgeId × Level)} : deliver g l a o s e = .ok s' →
      Step g l ⟨s, ⟨a, o, e⟩ :: ds, ts, log⟩ ⟨s', ds, ts, (e.2, a) :: log⟩
  | plant {s s' : Flow} {v : NodeId} {ts : List Task} {log : List (EdgeId × Level)} :
      plant g l s v = .ok s' → Step g l ⟨s, [], .plant v :: ts, log⟩ ⟨s', [], ts, log⟩
  | sendReturn {s : Flow} {v : NodeId} {a : Level} {ts : List Task}
      {log : List (EdgeId × Level)} : g.nodes[v]?.bind (·.singleReturn?) = some a →
      Step g l ⟨s, [], .sendReturn v :: ts, log⟩
        ⟨s, (returnEdges g v).map (⟨a, .start v, ·⟩), ts, log⟩
  | noReturn {s : Flow} {v : NodeId} {ts : List Task} {log : List (EdgeId × Level)} :
      g.nodes[v]?.bind (·.singleReturn?) = none →
      Step g l ⟨s, [], .sendReturn v :: ts, log⟩ ⟨s, [], ts, log⟩
  | forward {s : Flow} {p : NodeId × Level} {o : Origin} {ts : List Task}
      {log : List (EdgeId × Level)} : (s.factsOf p.1).levels.get? p.2 = some o →
      Step g l ⟨s, [], .forward p :: ts, log⟩ ⟨s, (onwardEdges g p.1).map (⟨p.2, o, ·⟩), ts, log⟩
  | unknown {s : Flow} {p : NodeId × Level} {ts : List Task} {log : List (EdgeId × Level)} :
      (s.factsOf p.1).levels.get? p.2 = none →
      Step g l ⟨s, [], .forward p :: ts, log⟩ ⟨s, [], ts, log⟩
  | round {s : Flow} {ts : List Task} {log : List (EdgeId × Level)} : s.pending.isEmpty = false →
      Step g l ⟨s, [], .round :: ts, log⟩
        ⟨{ s with pending := ∅ }, [], s.pending.toList.map .forward ++ .round :: ts, log⟩
  | settled {s : Flow} {ts : List Task} {log : List (EdgeId × Level)} : s.pending.isEmpty = true →
      Step g l ⟨s, [], .round :: ts, log⟩ ⟨s, [], ts, log⟩

/-- The next thing fails. -/
inductive Stops (g : Graph) (l : Lattice) : Stage → SolveError → Prop
  | deliver {s : Flow} {a : Level} {o : Origin} {e : Edge × EdgeId} {ds : List Delivery}
      {ts : List Task} {log : List (EdgeId × Level)} {err : SolveError} :
      deliver g l a o s e = .error err → Stops g l ⟨s, ⟨a, o, e⟩ :: ds, ts, log⟩ err
  | plant {s : Flow} {v : NodeId} {ts : List Task} {log : List (EdgeId × Level)}
      {err : SolveError} : plant g l s v = .error err → Stops g l ⟨s, [], .plant v :: ts, log⟩ err

def Reaches (g : Graph) (l : Lattice) : Stage → Stage → Prop := Relation.ReflTransGen (Step g l)

def Done (st : Stage) : Prop := st.sending = [] ∧ st.tasks = []

end Stage

open Stage

variable {g : Graph} {l : Lattice} {members : List NodeId} {s s' : Flow} {v : NodeId} {a : Level}
  {o : Origin} {e : Edge × EdgeId} {budget : Budget} {st st' : Stage} {ts ts' : List Task}
  {log : List (EdgeId × Level)} {x : Except SolveError Flow} {err : SolveError}

/-! ## Runs and stages -/

/-- From the stage on a run goes through the computation, and then to the tasks. -/
def Follows (g : Graph) (l : Lattice) (st : Stage) (ts : List Task) :
    Except SolveError Flow → Prop :=
  Ends (fun s => ∃ log, Reaches g l st ⟨s, [], ts, log⟩)
    fun err => ∃ st', Reaches g l st st' ∧ st'.Stops g l err

theorem Follows.step (hstep : Step g l st st') (h : Follows g l st' ts x) :
    Follows g l st ts x :=
  h.mono (fun _ ⟨log, hreach⟩ => ⟨log, hreach.head hstep⟩)
    fun _ ⟨st₁, hreach, hstops⟩ => ⟨st₁, hreach.head hstep, hstops⟩

theorem Follows.bind {f : Flow → Except SolveError Flow} (h : Follows g l st ts x)
    (hf : ∀ s log, x = .ok s → Follows g l ⟨s, [], ts, log⟩ ts' (f s)) :
    Follows g l st ts' (x >>= f) := by
  cases x with
  | error err => exact h
  | ok s =>
    obtain ⟨log, hreach⟩ := h
    refine (hf s log rfl).mono ?_ ?_
    · rintro s' ⟨log', hreach'⟩
      exact ⟨log', hreach.trans hreach'⟩
    · rintro err ⟨st', hreach', hstops⟩
      exact ⟨st', hreach.trans hreach', hstops⟩

theorem follows_deliveries (es : List (Edge × EdgeId)) (s : Flow) (log : List (EdgeId × Level)) :
    Follows g l ⟨s, es.map (⟨a, o, ·⟩), ts, log⟩ ts (es.foldlM (deliver g l a o) s) := by
  induction es generalizing s log with
  | nil => exact ⟨log, .refl⟩
  | cons e es ih =>
    rw [List.foldlM_cons]
    cases hd : deliver g l a o s e with
    | error err => exact ⟨_, .refl, .deliver hd⟩
    | ok s' => exact (ih s' _).step (.deliver hd)

theorem follows_tasks {β : Type} {f : Flow → β → Except SolveError Flow} {task : β → Task}
    (hf : ∀ x s ts log, Follows g l ⟨s, [], task x :: ts, log⟩ ts (f s x)) (xs : List β)
    (s : Flow) (log : List (EdgeId × Level)) :
    Follows g l ⟨s, [], xs.map task ++ ts, log⟩ ts (xs.foldlM f s) := by
  induction xs generalizing s log with
  | nil => exact ⟨log, .refl⟩
  | cons x xs ih =>
    rw [List.foldlM_cons]
    exact (hf x s _ log).bind fun s' log' _ => ih s' log'

theorem follows_plant (v : NodeId) (s : Flow) (ts : List Task) (log : List (EdgeId × Level)) :
    Follows g l ⟨s, [], .plant v :: ts, log⟩ ts (plant g l s v) := by
  cases hp : plant g l s v with
  | error err => exact ⟨_, .refl, .plant hp⟩
  | ok s' => exact ⟨log, .single (.plant hp)⟩

theorem follows_sendReturn (v : NodeId) (s : Flow) (ts : List Task)
    (log : List (EdgeId × Level)) :
    Follows g l ⟨s, [], .sendReturn v :: ts, log⟩ ts (sendReturn g l s v) := by
  rw [sendReturn]
  cases hret : g.nodes[v]?.bind (·.singleReturn?) with
  | none => exact ⟨log, .single (.noReturn hret)⟩
  | some a => exact (follows_deliveries _ s log).step (.sendReturn hret)

theorem follows_forward (p : NodeId × Level) (s : Flow) (ts : List Task)
    (log : List (EdgeId × Level)) :
    Follows g l ⟨s, [], .forward p :: ts, log⟩ ts (forward g l s p) := by
  rw [forward]
  cases ho : (s.factsOf p.1).levels.get? p.2 with
  | none => exact ⟨log, .single (.unknown ho)⟩
  | some o => exact (follows_deliveries _ s log).step (.forward ho)

theorem follows_rounds {k : Nat} (h : Drained (rounds g l k s)) (log : List (EdgeId × Level)) :
    Follows g l ⟨s, [], .round :: ts, log⟩ ts (rounds g l k s) := by
  induction k generalizing s log with
  | zero => exact ⟨log, .single (.settled h)⟩
  | succ k ih =>
    cases hempty : s.pending.isEmpty with
    | true =>
      rw [rounds_of_isEmpty hempty]
      exact ⟨log, .single (.settled hempty)⟩
    | false =>
      rw [rounds_succ_of_pending hempty] at h ⊢
      refine .step (.round hempty) ((follows_tasks follows_forward _ _ log).bind ?_)
      intro s₁ log₁ hround
      refine ih ?_ log₁
      rw [show round g l s = .ok s₁ from hround] at h
      exact h

/-- A run ends at a stage where nothing is left to do, or fails at one that stops. -/
theorem run_stages (g : Graph) (l : Lattice) (members : List NodeId)
    (hb : budget.used ≤ budget.cap) :
    Ends (fun r => ∃ st, Reaches g l (.start members budget) st ∧ st.Done ∧
        r = (st.flow.solution, st.flow.budget))
      (fun err => ∃ st, Reaches g l (.start members budget) st ∧ st.Stops g l err)
      (run g l members budget) := by
  have hlaunch : Follows g l (.start members budget) [.round] (launch g l members budget) :=
    (follows_tasks follows_plant members _ []).bind fun s log _ =>
      follows_tasks follows_sendReturn members s log
  have hrun : Follows g l (.start members budget) [] (do
      let s ← launch g l members budget
      rounds g l (s.budget.left + 2) s) :=
    hlaunch.bind fun s log hs =>
      follows_rounds (drained_rounds (s := s) (fits_of_launch hb hs) (Nat.le_refl _)) log
  have hsame : run g l members budget = (do
      let s ← (do let s ← launch g l members budget; rounds g l (s.budget.left + 2) s)
      return (s.solution, s.budget)) := by
    rw [run, bind_assoc]
  rw [hsame]
  refine Ends.bind (P := fun s => ∃ log, Reaches g l (.start members budget) ⟨s, [], [], log⟩)
    hrun ?_
  rintro s ⟨log, hreach⟩
  exact Ends.of_ok ⟨_, hreach, ⟨rfl, rfl⟩, rfl⟩

/-! ## What a step does to a flow -/

/-- All that one step does: steps and edges are noted, and one level may arrive at one node. -/
inductive Advances (g : Graph) (l : Lattice) (members : List NodeId) (s s' : Flow) : Prop
  | notes : s.Notes s' → Advances g l members s s'
  | arrives {s₁ : Flow} {v : NodeId} {a : Level} {o : Origin} {via : Option Kinds} :
      s.Notes s₁ → Cause g members s₁ v a o → Arrival g l v a o (kindOf via) s₁ s' →
      Advances g l members s s'

theorem notes_of_take (h : s.take = .ok s') : s.Notes s' := by
  rw [Flow.take] at h
  obtain ⟨b, -, h⟩ := bind_eq_ok.1 h
  cases h
  exact ⟨rfl, rfl, rfl, fun _ hp => hp⟩

theorem Reachable.notes (hs : Reachable g l members s) (h : s.Notes s') :
    Reachable g l members s' :=
  hs.book h.facts h.witnesses h.carried

theorem Advances.reachable (hs : Reachable g l members s) (h : Advances g l members s s') :
    Reachable g l members s' := by
  cases h with
  | notes h => exact hs.notes h
  | arrives h hcause harr => exact (hs.notes h).arrive hcause harr

theorem Advances.holds (h : Advances g l members s s') (hv : s.Holds v a) : s'.Holds v a := by
  cases h with
  | notes h => rwa [Flow.Holds, factsOf_of_facts_eq h.facts]
  | arrives h _ harr =>
    refine harr.holds_of_holds ?_
    rwa [Flow.Holds, factsOf_of_facts_eq h.facts]

theorem Advances.pending (h : Advances g l members s s') (p : NodeId × Level) :
    p ∈ s'.pending.toList ↔ p ∈ s.pending.toList ∨ (¬ s.Holds p.1 p.2 ∧ s'.Holds p.1 p.2) := by
  cases h with
  | notes h =>
    rw [h.pending, Flow.Holds, Flow.Holds, factsOf_of_facts_eq h.facts]
    tauto
  | @arrives s₁ _ _ _ _ h _ harr =>
    have hsame : s₁.Holds p.1 p.2 ↔ s.Holds p.1 p.2 := by
      rw [Flow.Holds, Flow.Holds, factsOf_of_facts_eq h.facts]
    rw [harr.pending, h.pending, hsame]

theorem Advances.conflicted (h : Advances g l members s s')
    (hv : (s.factsOf v).state = .conflicted) : (s'.factsOf v).state = .conflicted := by
  cases h with
  | notes h => rwa [factsOf_of_facts_eq h.facts]
  | @arrives s₁ u _ _ _ h _ harr =>
    have hv₁ : (s₁.factsOf v).state = .conflicted := by rwa [factsOf_of_facts_eq h.facts]
    by_cases hu : v = u
    · subst hu
      rw [harr.here]
      exact conflicted_receive_of_conflicted hv₁
    · rwa [harr.factsOf_of_ne hu]

theorem eq_of_step {o' : Origin} (h : o.step.mapError SolveError.overflow = .ok o') :
    o' = ⟨o.seed, o.distance + 1⟩ := by
  rw [Origin.step, addBelow] at h
  split at h
  · cases h
    rfl
  · cases h

theorem Sends.of_kept (h : Sends g members s a o e)
    (hkept : ∀ u, (s.factsOf u).levels.get? a = some o → (s'.factsOf u).levels.get? a = some o) :
    Sends g members s' a o e := by
  cases h with
  | sent hu hret he ho => exact .sent hu hret he ho
  | onward ho he => exact .onward (hkept _ ho) he

section Functions

variable (hl : l.Lawful) (hg : g.Over l)

include hl hg

theorem arrival_of_arrive {via : Option Kinds} (hs : Reachable g l members s)
    (hcause : Cause g members s v a o) (h : arrive g l s v a o via = .ok s') :
    Arrival g l v a o (kindOf via) s s' := by
  have ha : a < l.size := hcause.lt hg fun u b => hs.lt hl hg
  have hends := arrive_ends (g := g) (s := s) (v := v) (o := o) hl ha via
  rwa [h] at hends

theorem plant_advances (hs : Reachable g l members s) (hv : v ∈ members)
    (h : plant g l s v = .ok s') : Advances g l members s s' := by
  rw [plant] at h
  cases hseed : g.nodes[v]?.bind (·.seed?) with
  | none =>
    rw [hseed] at h
    cases h
    exact .notes ⟨rfl, rfl, rfl, fun _ hp => hp⟩
  | some a =>
    rw [hseed] at h
    obtain ⟨s₁, htake, h⟩ := bind_eq_ok.1 h
    have hnotes := notes_of_take htake
    have hcause : Cause g members s₁ v a (.start v) := .seed hv hseed
    exact .arrives hnotes hcause (arrival_of_arrive hl hg (hs.notes hnotes) hcause h)

/-- A delivery leaves the origin in place from which it was made. -/
theorem deliver_advances (hs : Reachable g l members s) (hsend : Sends g members s a o e)
    (h : deliver g l a o s e = .ok s') :
    Advances g l members s s' ∧
      ∀ u, (s.factsOf u).levels.get? a = some o → (s'.factsOf u).levels.get? a = some o := by
  obtain ⟨next, hnext, h⟩ := bind_eq_ok.1 h
  obtain ⟨s₁, htake, h⟩ := bind_eq_ok.1 h
  have hnotes := notes_of_take htake
  cases eq_of_step hnext
  cases hadm : admits g e.1 a with
  | true =>
    rw [hadm] at h
    cases h
    exact ⟨.notes hnotes, fun u hu => by rwa [factsOf_of_facts_eq hnotes.facts]⟩
  | false =>
    rw [hadm] at h
    let s₂ : Flow := { s₁ with carried := s₁.carried.insert (e.2, a) }
    have hnotes₂ : s.Notes s₂ := ⟨hnotes.facts, hnotes.witnesses, hnotes.pending,
      fun p hp => SortedSet.mem_insert.2 (.inr (hnotes.carried p hp))⟩
    have hcause : Cause g members s₂ e.1.target a ⟨o.seed, o.distance + 1⟩ :=
      hsend.cause hnotes₂.facts hadm (SortedSet.mem_insert.2 (.inl rfl))
    have harr := arrival_of_arrive hl hg (hs.notes hnotes₂) hcause h
    refine ⟨.arrives hnotes₂ hcause harr, fun u hu => origin_of_farther harr ?_⟩
    rwa [factsOf_of_facts_eq hnotes₂.facts]

end Functions

/-! ## What every stage keeps -/

/-- The deliveries are of one level from one origin, along edges that it may travel. -/
def Sendable (g : Graph) (members : List NodeId) (s : Flow) (ds : List Delivery) : Prop :=
  ∃ a o, ∀ d ∈ ds, d.level = a ∧ d.origin = o ∧ Sends g members s a o d.edge

namespace Sendable

variable {ds : List Delivery}

theorem nil : Sendable g members s [] := ⟨0, .start 0, fun _ hd => absurd hd List.not_mem_nil⟩

theorem map {es : List (Edge × EdgeId)} (h : ∀ e ∈ es, Sends g members s a o e) :
    Sendable g members s (es.map (⟨a, o, ·⟩)) := by
  refine ⟨a, o, fun d hd => ?_⟩
  obtain ⟨e, he, rfl⟩ := List.mem_map.1 hd
  exact ⟨rfl, rfl, h e he⟩

theorem head (h : Sendable g members s (⟨a, o, e⟩ :: ds)) : Sends g members s a o e := by
  obtain ⟨a', o', hall⟩ := h
  obtain ⟨rfl, rfl, hsend⟩ := hall _ List.mem_cons_self
  exact hsend

/-- The next delivery may be made because the one before left its origin in place. -/
theorem tail (h : Sendable g members s (⟨a, o, e⟩ :: ds))
    (hkept : ∀ u, (s.factsOf u).levels.get? a = some o → (s'.factsOf u).levels.get? a = some o) :
    Sendable g members s' ds := by
  obtain ⟨a', o', hall⟩ := h
  obtain ⟨rfl, rfl, -⟩ := hall _ List.mem_cons_self
  refine ⟨a, o, fun d hd => ?_⟩
  obtain ⟨hlevel, horigin, hsend⟩ := hall d (List.mem_cons_of_mem _ hd)
  exact ⟨hlevel, horigin, hsend.of_kept hkept⟩

end Sendable

/-- The run concerns its members, and what it sends may be sent. -/
structure Stage.Sound (g : Graph) (l : Lattice) (members : List NodeId) (st : Stage) : Prop where
  flow : Reachable g l members st.flow
  plant : ∀ v, .plant v ∈ st.tasks → v ∈ members
  sendReturn : ∀ v, .sendReturn v ∈ st.tasks → v ∈ members
  sending : Sendable g members st.flow st.sending

namespace Stage

theorem sound_start : (start members budget).Sound g l members where
  flow := .start rfl rfl
  plant v hv := by simpa [start] using hv
  sendReturn v hv := by simpa [start] using hv
  sending := .nil

theorem Sound.next {t : Task} {ds : List Delivery} (h : Sound g l members ⟨s, [], t :: ts, log⟩)
    (hflow : Reachable g l members s') (hsending : Sendable g members s' ds) :
    Sound g l members ⟨s', ds, ts, log⟩ :=
  ⟨hflow, fun v hv => h.plant v (List.mem_cons_of_mem t hv),
    fun v hv => h.sendReturn v (List.mem_cons_of_mem t hv), hsending⟩

theorem Step.sound (hl : l.Lawful) (hg : g.Over l) (h : Step g l st st')
    (hs : st.Sound g l members) : st'.Sound g l members := by
  cases h with
  | deliver h =>
    obtain ⟨hadv, hkept⟩ := deliver_advances hl hg hs.flow hs.sending.head h
    exact ⟨hadv.reachable hs.flow, hs.plant, hs.sendReturn, hs.sending.tail hkept⟩
  | @plant s s' v ts log h =>
    have hadv := plant_advances hl hg hs.flow (hs.plant v List.mem_cons_self) h
    exact hs.next (hadv.reachable hs.flow) .nil
  | @sendReturn s v a ts log h =>
    have hv := hs.sendReturn v List.mem_cons_self
    exact hs.next hs.flow (.map fun e he => .sent hv h he rfl)
  | forward h => exact hs.next hs.flow (.map fun e he => .onward h he)
  | round _ =>
    refine ⟨hs.flow.book rfl rfl fun _ hp => hp, fun v hv => hs.plant v ?_,
      fun v hv => hs.sendReturn v ?_, .nil⟩
    · simpa using hv
    · simpa using hv
  | noReturn _ | unknown _ | settled _ => exact hs.next hs.flow .nil

theorem Reaches.sound (hl : l.Lawful) (hg : g.Over l) (h : Reaches g l (start members budget) st) :
    st.Sound g l members := by
  induction h with
  | refl => exact sound_start
  | tail _ hstep ih => exact hstep.sound hl hg ih

/-- A stage stops for lack of steps, or in a graph that is too large. -/
theorem Sound.fails (hl : l.Lawful) (hg : g.Over l) (hcl : g.Closed) (hs : st.Sound g l members)
    (h : st.Stops g l err) : Fails g st.flow.budget.cap False err := by
  cases h with
  | deliver h =>
    have hends := deliver_ends hl hg hcl hs.flow hs.sending.head False.elim
    rwa [h] at hends
  | @plant s v ts log err h =>
    have hends := plant_ends hl hg hcl hs.flow (hs.plant v List.mem_cons_self) False.elim
    rwa [h] at hends

/--
At every stage of a run the distance of a level is at most the number of nodes that hold it, and no
side of a witness is farther than there are nodes. With fewer than `2 ^ 31` nodes one step more and
the sum of two sides fit their word, and neither a stage nor the run fails for want of room.
-/
theorem distances_bounded {names : List String} {spec : LatticeSpec}
    (hl : Lattice.build names spec = .ok l) (hcl : g.Closed) (hg : g.Over l)
    (h : Reaches g l (start members budget) st) :
    (∀ v a o, (st.flow.factsOf v).levels.get? a = some o →
      o.distance ≤ (holders g st.flow a).card) ∧
    (∀ a, (holders g st.flow a).card ≤ g.nodes.size) ∧
    (∀ w ∈ st.flow.witnesses.toList,
      w.incoming.distance ≤ g.nodes.size ∧ w.existing.distance ≤ g.nodes.size) ∧
    (g.nodes.size < 2 ^ 31 →
      (∀ v a o, (st.flow.factsOf v).levels.get? a = some o →
        o.step = .ok ⟨o.seed, o.distance + 1⟩) ∧
      (∀ w ∈ st.flow.witnesses.toList,
        w.combinedDistance = .ok (w.incoming.distance + w.existing.distance)) ∧
      (∀ err, st.Stops g l err → err = .resourceExhausted st.flow.budget.cap) ∧
      (budget.used ≤ budget.cap → ∀ c, run g l members budget ≠ .error (.overflow c))) := by
  have hl := Lattice.build_lawful hl
  have hword : word32 = 4294967296 := rfl
  have hs := Reaches.sound hl hg h
  have hnear := hs.flow.near hcl
  have hwithin := hs.flow.within_witnesses hcl
  refine ⟨hnear, fun a => card_holders_le, hwithin, fun hsize => ⟨fun v a o ho => ?_,
    fun w hw => ?_, fun err herr => ?_, fun hb c hc => ?_⟩⟩
  · have hle := (hnear v a o ho).trans card_holders_le
    rw [Origin.step, addBelow, if_pos (by omega)]
    rfl
  · obtain ⟨hincoming, hexisting⟩ := hwithin w hw
    rw [Witness.combinedDistance, addBelow, if_pos (by omega)]
  · have hfails := hs.fails hl hg hcl herr
    cases err with
    | resourceExhausted cap => rw [hfails.1]
    | noLevels n => exact hfails.elim
    | overflow c =>
      have hlarge : word32 ≤ 2 * g.nodes.size := hfails
      omega
  · have hends := run_stages g l members hb
    rw [hc] at hends
    obtain ⟨st', hreach, hstops⟩ := hends
    have hlarge : word32 ≤ 2 * g.nodes.size := (Reaches.sound hl hg hreach).fails hl hg hcl hstops
    omega

/-- A run over all nodes of a program that passes a check ends at a stage that passes it. -/
theorem exists_done_of_any {settings : AnalysisSettings} {program : Program}
    {P : Prepared → Solution × Budget → Prop} [∀ p q, Decidable (P p q)]
    (hb : budget.used ≤ budget.cap)
    (h : (Analysis.prepare settings program).toOption.any (fun r => r.toOption.any fun p =>
      (run p.graph p.lattice (List.range p.graph.nodes.size) budget).toOption.any fun q =>
        decide (P p q)) = true) :
    ∃ p st, Analysis.prepare settings program = .ok (.ok p) ∧
      Reaches p.graph p.lattice (start (List.range p.graph.nodes.size) budget) st ∧ st.Done ∧
      P p (st.flow.solution, st.flow.budget) := by
  obtain ⟨r, hp, hr⟩ := exists_ok_of_any h
  obtain ⟨p, rfl, hrun⟩ := exists_ok_of_any hr
  obtain ⟨q, hq, hcheck⟩ := exists_ok_of_any hrun
  have hends := run_stages p.graph p.lattice (List.range p.graph.nodes.size) hb
  rw [hq] at hends
  obtain ⟨st, hreach, hdone, rfl⟩ := hends
  exact ⟨p, st, hp, hreach, hdone, of_decide_eq_true hcheck⟩

theorem distances_bounded_contested :
    ∃ (names : List String) (l : Lattice) (g : Graph) (st : Stage),
    Lattice.build names Graph.contestedLevels = .ok l ∧ g.Closed ∧ g.Over l ∧
    Reaches g l (start (List.range g.nodes.size) ⟨100, 0⟩) st ∧ g.nodes.size < 2 ^ 31 ∧
    (∃ w ∈ st.flow.witnesses.toList, w.incoming.distance = 2 ∧
      w.combinedDistance = .ok (w.incoming.distance + w.existing.distance)) ∧
    (∀ v a o, (st.flow.factsOf v).levels.get? a = some o →
      o.distance ≤ (holders g st.flow a).card) ∧
    ∀ c, run g l (List.range g.nodes.size) ⟨100, 0⟩ ≠ .error (.overflow c) := by
  have hfits : (⟨100, 0⟩ : Budget).used ≤ (⟨100, 0⟩ : Budget).cap := by decide
  have hrun : (Analysis.prepare { lattice := Graph.contestedLevels } Graph.contested).toOption.any
      (fun r => r.toOption.any fun p =>
        (run p.graph p.lattice (List.range p.graph.nodes.size) ⟨100, 0⟩).toOption.any fun q =>
          decide (p.graph.nodes.size < 2 ^ 31 ∧
            ∃ w ∈ q.1.witnesses, w.incoming.distance = 2)) = true := by
    decide +kernel
  obtain ⟨p, st, hp, hreach, -, hsize, w, hw, hfar⟩ := exists_done_of_any hfits hrun
  have hvalid := Analysis.valid_of_prepare hp
  have hlattice := (Analysis.prepare_eq_ok hp).1
  obtain ⟨hnear, -, -, hsmall⟩ := distances_bounded hlattice hvalid.closed hvalid.labels hreach
  obtain ⟨-, hcombined, -, hnever⟩ := hsmall hsize
  exact ⟨_, p.lattice, p.graph, st, hlattice, hvalid.closed, hvalid.labels, hreach, hsize,
    ⟨w, hw, hfar, hcombined w hw⟩, hnear, hnever hfits⟩

end Stage

end Spread

end Enclave
