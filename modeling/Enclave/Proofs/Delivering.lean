import Enclave.Proofs.Distance
import Mathlib.Algebra.GroupWithZero.Nat

/-!
# Enclave.Proofs.Delivering

What the loops of a spread do, one function at a time: seeds are planted, return levels are sent,
and the levels of a node go on along its edges. Each lemma says what a function leaves in place
(`Flow.Extends`), what it has done, how many steps that took, and for which reasons it may fail
(`Spread.Fails`). `enough` stands for the budget being large enough: where it is, running out of
steps is not among the reasons.
-/

namespace Enclave

attribute [local instance] lexOrd

/-- What is known, carried and spent is never taken back. -/
structure Flow.Grows (s s' : Flow) : Prop where
  cap : s'.budget.cap = s.budget.cap
  used : s.budget.used ≤ s'.budget.used
  fits : s.budget.used ≤ s.budget.cap → s'.budget.used ≤ s'.budget.cap
  holds : ∀ v a, s.Holds v a → s'.Holds v a
  carried : ∀ p ∈ s.carried.toList, p ∈ s'.carried.toList

/-- Deliveries leave pending what was pending and what they made known. -/
structure Flow.Extends (s s' : Flow) : Prop extends s.Grows s' where
  pending : ∀ p, p ∈ s'.pending.toList ↔
    p ∈ s.pending.toList ∨ (¬ s.Holds p.1 p.2 ∧ s'.Holds p.1 p.2)
  idle : s'.budget.used = s.budget.used → s'.pending = s.pending

namespace Flow

variable {s s' s'' : Flow}

theorem Grows.refl (s : Flow) : s.Grows s :=
  ⟨rfl, Nat.le_refl _, id, fun _ _ h => h, fun _ h => h⟩

theorem Grows.trans (h : s.Grows s') (h' : s'.Grows s'') : s.Grows s'' :=
  ⟨h'.cap.trans h.cap, h.used.trans h'.used, fun hs => h'.fits (h.fits hs),
    fun v a hv => h'.holds v a (h.holds v a hv), fun p hp => h'.carried p (h.carried p hp)⟩

theorem Extends.refl (s : Flow) : s.Extends s :=
  ⟨.refl s, fun _ => ⟨.inl, fun h => h.elim id fun h => absurd h.2 h.1⟩, fun _ => rfl⟩

theorem Extends.trans (h : s.Extends s') (h' : s'.Extends s'') : s.Extends s'' := by
  refine ⟨h.toGrows.trans h'.toGrows, fun p => ?_, fun hused => ?_⟩
  · rw [h'.pending, h.pending]
    have h₁ := h.holds p.1 p.2
    have h₂ := h'.holds p.1 p.2
    tauto
  · have h₁ := h.used
    have h₂ := h'.used
    rw [h'.idle (by omega), h.idle (by omega)]

end Flow

namespace Spread

open NodeFacts Enclave.Flow

variable {g : Graph} {l : Lattice} {members : List NodeId} {s s' : Flow} {u v : NodeId}
  {a : Level} {o : Origin} {e : Edge × EdgeId} {enough : Prop}

/-- Why a spread may fail: a distance does not fit its word, or the budget is not enough. -/
def Fails (g : Graph) (cap : Nat) (enough : Prop) : SolveError → Prop
  | .resourceExhausted c => c = cap ∧ ¬ enough
  | .overflow _ => word32 ≤ 2 * g.nodes.size
  | .noLevels _ => False

/-- The level has come to the end of the edge: it was admitted there, or stands there. -/
def Delivered (g : Graph) (s : Solution) (e : Edge × EdgeId) (a : Level) : Prop :=
  admits g e.1 a = true ∨ ((e.2, a) ∈ s.carried.toList ∧ s.Holds e.1.target a)

theorem Delivered.mono (h : Delivered g s.solution e a) (hs : s.Grows s') :
    Delivered g s'.solution e a :=
  h.imp id fun h => ⟨hs.carried _ h.1, hs.holds _ _ h.2⟩

/-- The level may be sent along the edge from the origin. -/
inductive Sends (g : Graph) (members : List NodeId) (s : Flow) (a : Level) (o : Origin)
    (e : Edge × EdgeId) : Prop
  | sent {u : NodeId} : u ∈ members → g.nodes[u]?.bind (·.singleReturn?) = some a →
      e ∈ returnEdges g u → o = .start u → Sends g members s a o e
  | onward {u : NodeId} : (s.factsOf u).levels.get? a = some o → e ∈ onwardEdges g u →
      Sends g members s a o e

theorem Sends.cause (h : Sends g members s a o e) (hf : s'.facts = s.facts)
    (hadm : admits g e.1 a = false) (hcar : (e.2, a) ∈ s'.carried.toList) :
    Cause g members s' e.1.target a ⟨o.seed, o.distance + 1⟩ := by
  cases h with
  | sent hu hr he ho =>
    subst ho
    exact .sent hu hr he hadm hcar
  | onward ho he => exact .onward (by rwa [factsOf_of_facts_eq hf]) he hadm hcar

theorem Sends.distance_le (hg : g.Closed) (hs : Reachable g l members s)
    (h : Sends g members s a o e) : o.distance ≤ g.nodes.size := by
  cases h with
  | sent _ _ _ ho =>
    subst ho
    exact Nat.zero_le _
  | onward ho _ => exact (hs.near hg _ _ _ ho).trans card_holders_le

theorem extends_of_arrival {s₁ : Flow} {kind : ConflictKind}
    (h : Arrival g l v a o kind s₁ s') (hf : s₁.facts = s.facts) (hp : s₁.pending = s.pending)
    (hcap : s₁.budget.cap = s.budget.cap) (hused : s₁.budget.used = s.budget.used + 1)
    (hfits : s.budget.used < s.budget.cap)
    (hcar : ∀ p ∈ s.carried.toList, p ∈ s₁.carried.toList) : s.Extends s' := by
  have hholds : ∀ w b, s₁.Holds w b ↔ s.Holds w b := by
    intro w b
    rw [Flow.Holds, Flow.Holds, factsOf_of_facts_eq hf]
  refine ⟨⟨by rw [h.budget, hcap], by rw [h.budget]; omega, fun _ => by rw [h.budget]; omega,
    fun w b hw => h.holds_of_holds ((hholds w b).2 hw),
    fun p hp => by rw [h.carried]; exact hcar p hp⟩, fun p => ?_, fun hu => ?_⟩
  · rw [h.pending, hp, hholds]
  · rw [h.budget] at hu
    omega

theorem arrive_flow (hl : l.Lawful) (hg : g.Over l) (hcl : g.Closed)
    (hs : Reachable g l members s) (hcause : Cause g members s v a o) (via : Option Kinds)
    (cap : Nat) :
    Ends (fun s' => Reachable g l members s' ∧ Arrival g l v a o (kindOf via) s s')
      (Fails g cap enough) (arrive g l s v a o via) := by
  have ha : a < l.size := hcause.lt hg fun u b => hs.lt hl hg
  refine (arrive_ends hl ha via).mono (fun s' h => ⟨hs.arrive hcause h, h⟩) ?_
  rintro _ ⟨c, rfl, hc⟩
  have hxs : ∀ w ∈ testimony g l (s.factsOf v) v a o (kindOf via), w.Within g.nodes.size :=
    fun w hw => hcause.within_testimony hcl (hs.near hcl) hw
  have := recordAll_ends hxs (hs.within_witnesses hcl)
  rwa [hc] at this

/-- A level that comes back to where it set out changes nothing there. -/
theorem origin_of_farther {s₁ : Flow} {kind : ConflictKind}
    (h : Arrival g l v a ⟨o.seed, o.distance + 1⟩ kind s₁ s')
    (hu : (s₁.factsOf u).levels.get? a = some o) : (s'.factsOf u).levels.get? a = some o := by
  by_cases huv : u = v
  · subst huv
    obtain ⟨o', ho'⟩ := h.holds_of_holds ⟨o, hu⟩
    rw [h.here] at ho' ⊢
    rcases origin_receive ho' with hsame | ⟨-, -, hnear⟩ | ⟨hnew, -, -⟩
    · rw [ho', ← hsame, hu]
    · have := distance_le_of_order (hnear o hu)
      exact absurd this (Nat.not_succ_le_self _)
    · exact absurd ⟨o, hu⟩ hnew
  · rwa [h.factsOf_of_ne huv]

theorem take_ends (henough : enough → s.budget.used < s.budget.cap) :
    Ends (fun s' => s' = { s with budget := ⟨s.budget.cap, s.budget.used + 1⟩ } ∧
        s.budget.used < s.budget.cap)
      (Fails g s.budget.cap enough) s.take := by
  rw [Flow.take, Budget.take]
  split
  · rename_i hroom
    exact ⟨rfl, hroom⟩
  · rename_i hfull
    exact ⟨rfl, fun h => hfull (henough h)⟩

theorem step_ends (h : o.distance ≤ g.nodes.size) (cap : Nat) :
    Ends (fun next => next = ⟨o.seed, o.distance + 1⟩) (Fails g cap enough)
      (o.step.mapError .overflow) := by
  rw [Origin.step, addBelow]
  split
  · rfl
  · rename_i hbig
    show word32 ≤ 2 * g.nodes.size
    have : word32 = 4294967296 := rfl
    omega

/--
A loop over `xs` whose turn for `x` takes `c x` steps and brings about `D x`, which stays: in the
end all of it has come about, for the sum of the steps.
-/
theorem loop_ends {β : Type} {f : Flow → β → Except SolveError Flow} {I : Flow → Prop}
    {D : β → Flow → Prop} {c : β → Nat} {xs : List β}
    (hD : ∀ x s s', D x s → s.Extends s' → D x s')
    (hf : ∀ x ∈ xs, ∀ s, I s → (enough → s.budget.used + c x ≤ s.budget.cap) →
      Ends (fun s' => I s' ∧ s.Extends s' ∧ s'.budget.used = s.budget.used + c x ∧ D x s')
        (Fails g s.budget.cap enough) (f s x))
    (hs : I s) (henough : enough → s.budget.used + (xs.map c).sum ≤ s.budget.cap) :
    Ends (fun s' => I s' ∧ s.Extends s' ∧
        s'.budget.used = s.budget.used + (xs.map c).sum ∧ ∀ x ∈ xs, D x s')
      (Fails g s.budget.cap enough) (xs.foldlM f s) := by
  -- every entry is still to come or has been dealt with
  refine Ends.mono (Ends.foldlM (P := fun rest s₁ => I s₁ ∧ s.Extends s₁ ∧
    s₁.budget.used + (rest.map c).sum = s.budget.used + (xs.map c).sum ∧
    (∀ x ∈ rest, x ∈ xs) ∧ ∀ x ∈ xs, x ∈ rest ∨ D x s₁) ?_ ?_) ?_ fun _ h => h
  · rintro x rest s₁ ⟨hs₁, hext, hused, hsub, hdone⟩
    rw [List.map_cons, List.sum_cons] at hused
    rw [← hext.cap]
    refine (hf x (hsub x List.mem_cons_self) s₁ hs₁ fun h => ?_).mono ?_ fun _ h => h
    · have := henough h
      have := hext.cap
      omega
    · rintro s₂ ⟨hs₂, hext₂, hused₂, hx⟩
      refine ⟨hs₂, hext.trans hext₂, by omega, fun y hy => hsub y (List.mem_cons_of_mem x hy),
        fun y hy => ?_⟩
      rcases hdone y hy with hy | hy
      · rcases List.mem_cons.1 hy with rfl | hy
        · exact .inr hx
        · exact .inl hy
      · exact .inr (hD y s₁ s₂ hy hext₂)
  · exact ⟨hs, .refl s, rfl, fun _ h => h, fun _ h => .inl h⟩
  · rintro s' ⟨hs', hext, hused, -, hdone⟩
    exact ⟨hs', hext, hused, fun x hx => (hdone x hx).resolve_left List.not_mem_nil⟩

def seedSteps (g : Graph) (v : NodeId) : Nat :=
  if (g.nodes[v]?.bind (·.seed?)).isSome then 1 else 0

def returnSteps (g : Graph) (v : NodeId) : Nat :=
  if (g.nodes[v]?.bind (·.singleReturn?)).isSome then (returnEdges g v).length else 0

section Functions

variable (hl : l.Lawful) (hg : g.Over l) (hcl : g.Closed)

include hl hg hcl

theorem deliver_ends (hs : Reachable g l members s) (hsend : Sends g members s a o e)
    (henough : enough → s.budget.used < s.budget.cap) :
    Ends (fun s' => Reachable g l members s' ∧ s.Extends s' ∧
        s'.budget.used = s.budget.used + 1 ∧ Delivered g s'.solution e a ∧
        ∀ u, (s.factsOf u).levels.get? a = some o → (s'.factsOf u).levels.get? a = some o)
      (Fails g s.budget.cap enough) (deliver g l a o s e) := by
  refine (step_ends (hsend.distance_le hcl hs) _).bind ?_
  rintro _ rfl
  refine (take_ends henough).bind ?_
  rintro _ ⟨rfl, hroom⟩
  cases hadm : admits g e.1 a with
  | true =>
    refine Ends.of_ok ⟨hs.book rfl rfl fun _ h => h, ⟨⟨rfl, Nat.le_succ _, fun _ => hroom,
      fun _ _ h => h, fun _ h => h⟩, fun p => ?_, fun h => absurd h (Nat.succ_ne_self _)⟩, rfl,
      .inl hadm, fun _ h => h⟩
    exact ⟨.inl, fun h => h.elim id fun h => absurd h.2 h.1⟩
  | false =>
    have hcar : ∀ p ∈ s.carried.toList, p ∈ (s.carried.insert (e.2, a)).toList :=
      fun p hp => SortedSet.mem_insert.2 (.inr hp)
    let s₁ : Flow := { s with
      budget := ⟨s.budget.cap, s.budget.used + 1⟩
      carried := s.carried.insert (e.2, a) }
    have hs₁ : Reachable g l members s₁ := hs.book rfl rfl hcar
    have hcause : Cause g members s₁ e.1.target a ⟨o.seed, o.distance + 1⟩ :=
      hsend.cause rfl hadm (SortedSet.mem_insert.2 (.inl rfl))
    refine (arrive_flow hl hg hcl hs₁ hcause _ _).mono ?_ fun _ h => h
    rintro s' ⟨hs', harr⟩
    have hext : s.Extends s' := extends_of_arrival harr rfl rfl rfl rfl hroom hcar
    refine ⟨hs', hext, by rw [harr.budget], .inr ⟨?_, ?_⟩, fun u hu => ?_⟩
    · show (e.2, a) ∈ s'.carried.toList
      rw [harr.carried]
      exact SortedSet.mem_insert.2 (.inl rfl)
    · exact harr.holds
    · exact origin_of_farther harr hu

theorem deliverAll_ends {es : List (Edge × EdgeId)} (hs : Reachable g l members s)
    (hsend : ∀ e ∈ es, ∀ s₁ : Flow,
      (∀ u, (s.factsOf u).levels.get? a = some o → (s₁.factsOf u).levels.get? a = some o) →
      Sends g members s₁ a o e)
    (henough : enough → s.budget.used + es.length ≤ s.budget.cap) :
    Ends (fun s' => Reachable g l members s' ∧ s.Extends s' ∧
        s'.budget.used = s.budget.used + es.length ∧ ∀ e ∈ es, Delivered g s'.solution e a)
      (Fails g s.budget.cap enough) (es.foldlM (deliver g l a o) s) := by
  have hsum : (es.map fun _ => 1).sum = es.length := by simp
  rw [← hsum] at henough ⊢
  -- the origin stands where it stood: no edge brings the level back from nearer by
  refine (loop_ends (I := fun s₁ => Reachable g l members s₁ ∧
    ∀ u, (s.factsOf u).levels.get? a = some o → (s₁.factsOf u).levels.get? a = some o)
    (D := fun e s' => Delivered g s'.solution e a) (fun _ _ _ h hext => h.mono hext.toGrows) ?_
    ⟨hs, fun _ h => h⟩ henough).mono (fun s' h => ⟨h.1.1, h.2⟩) fun _ h => h
  rintro e he s₁ ⟨hs₁, hkeep⟩ hroom
  refine (deliver_ends hl hg hcl hs₁ (hsend e he s₁ hkeep) hroom).mono ?_ fun _ h => h
  rintro s₂ ⟨hs₂, hext₂, hused₂, hdel, hkeep₂⟩
  exact ⟨⟨hs₂, fun u hu => hkeep₂ u (hkeep u hu)⟩, hext₂, hused₂, hdel⟩

theorem plant_ends (hs : Reachable g l members s) (hv : v ∈ members)
    (henough : enough → s.budget.used + seedSteps g v ≤ s.budget.cap) :
    Ends (fun s' => Reachable g l members s' ∧ s.Extends s' ∧
        s'.budget.used = s.budget.used + seedSteps g v ∧
        ∀ a, g.nodes[v]?.bind (·.seed?) = some a → s'.Holds v a)
      (Fails g s.budget.cap enough) (plant g l s v) := by
  rw [seedSteps] at henough ⊢
  rw [plant]
  cases hseed : g.nodes[v]?.bind (·.seed?) with
  | none => exact Ends.of_ok ⟨hs, .refl s, rfl, fun a ha => by cases ha⟩
  | some a =>
    rw [hseed] at henough
    refine (take_ends henough).bind ?_
    rintro _ ⟨rfl, hroom⟩
    let s₁ : Flow := { s with budget := ⟨s.budget.cap, s.budget.used + 1⟩ }
    have hs₁ : Reachable g l members s₁ := hs.book rfl rfl fun _ h => h
    refine (arrive_flow hl hg hcl hs₁ (.seed hv hseed) none _).mono ?_ fun _ h => h
    rintro s' ⟨hs', harr⟩
    refine ⟨hs', extends_of_arrival harr rfl rfl rfl rfl hroom fun _ h => h,
      by rw [harr.budget]; rfl, fun b hb => ?_⟩
    cases hb
    exact harr.holds

theorem sendReturn_ends (hs : Reachable g l members s) (hv : v ∈ members)
    (henough : enough → s.budget.used + returnSteps g v ≤ s.budget.cap) :
    Ends (fun s' => Reachable g l members s' ∧ s.Extends s' ∧
        s'.budget.used = s.budget.used + returnSteps g v ∧
        ∀ a, g.nodes[v]?.bind (·.singleReturn?) = some a →
          ∀ e ∈ returnEdges g v, Delivered g s'.solution e a)
      (Fails g s.budget.cap enough) (sendReturn g l s v) := by
  rw [returnSteps] at henough ⊢
  rw [sendReturn]
  cases hret : g.nodes[v]?.bind (·.singleReturn?) with
  | none => exact Ends.of_ok ⟨hs, .refl s, rfl, fun a ha => by cases ha⟩
  | some a =>
    rw [hret] at henough
    refine (deliverAll_ends hl hg hcl hs (fun e he s₁ _ => .sent hv hret he rfl) henough).mono
      ?_ fun _ h => h
    rintro s' ⟨hs', hext, hused, hdone⟩
    refine ⟨hs', hext, hused, fun b hb => ?_⟩
    cases hb
    exact hdone

theorem forward_ends (hs : Reachable g l members s) (ha : s.Holds v a)
    (henough : enough → s.budget.used + (onwardEdges g v).length ≤ s.budget.cap) :
    Ends (fun s' => Reachable g l members s' ∧ s.Extends s' ∧
        s'.budget.used = s.budget.used + (onwardEdges g v).length ∧
        ∀ e ∈ onwardEdges g v, Delivered g s'.solution e a)
      (Fails g s.budget.cap enough) (forward g l s (v, a)) := by
  obtain ⟨o, ho⟩ := ha
  rw [forward, ho]
  exact deliverAll_ends hl hg hcl hs (fun e he s₁ hkeep => .onward (hkeep v ho) he) henough

end Functions

end Spread

end Enclave
