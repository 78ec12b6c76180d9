import Enclave.Proofs.Delivering

/-!
# Enclave.Proofs.Settling

How origins change while levels spread: an origin is only ever replaced by one that comes before it
in the order of origins, and what a function adds lies within one edge of what it sends.

`Origin.NoFarther` is the order of origins as a relation, `Flow.Settles` what every function of a
spread keeps of the origins that are known, and `Flow.Knows` what a delivery has brought about.

* `round_settles`: after a round, what was pending is known one edge on, from no farther away than
  it was when the round began.
* `launch_settles`: at the start every seed is known where it stands, and every return level one
  edge away.
-/

namespace Enclave

attribute [local instance] lexOrd

open Std

namespace Origin

variable {g : Graph} {o o' o'' : Origin}

instance (g : Graph) : TransCmp (order g) :=
  inferInstanceAs
    (TransCmp (compareLex (compareOn distance) (compareOn fun o : Origin => g.name o.seed)))

/-- The first origin comes before the second in their order, or is level with it. -/
def NoFarther (g : Graph) (o o' : Origin) : Prop := (o.order g o').isLE = true

theorem noFarther_iff : o.NoFarther g o' ↔ o.distance < o'.distance ∨
    (o.distance = o'.distance ∧ (compare (g.name o.seed) (g.name o'.seed)).isLE = true) := by
  rw [NoFarther, order, Ordering.isLE_then_iff_or, Nat.compare_eq_lt, Nat.compare_eq_eq]

namespace NoFarther

theorem refl (g : Graph) (o : Origin) : o.NoFarther g o := ReflCmp.isLE_rfl

theorem trans (h : o.NoFarther g o') (h' : o'.NoFarther g o'') : o.NoFarther g o'' :=
  TransCmp.isLE_trans h h'

theorem of_isLT (h : (o.order g o').isLT = true) : o.NoFarther g o' := by
  unfold NoFarther
  cases hcmp : o.order g o' <;> simp_all

theorem of_not_isLT (h : ¬ (o.order g o').isLT = true) : o'.NoFarther g o := by
  have hswap : o'.order g o = (o.order g o').swap := OrientedCmp.eq_swap
  rw [NoFarther, hswap]
  cases hcmp : o.order g o' <;> simp_all

theorem distance_le (h : o.NoFarther g o') : o.distance ≤ o'.distance := by
  rcases noFarther_iff.1 h with h | h
  · exact Nat.le_of_lt h
  · exact Nat.le_of_eq h.1

theorem step (h : o.NoFarther g o') :
    NoFarther g ⟨o.seed, o.distance + 1⟩ ⟨o'.seed, o'.distance + 1⟩ := by
  rw [noFarther_iff] at h ⊢
  rcases h with h | ⟨hdistance, hname⟩
  · exact .inl (Nat.succ_lt_succ h)
  · exact .inr ⟨congrArg (· + 1) hdistance, hname⟩

end NoFarther

end Origin

namespace NodeFacts

variable {g : Graph} {l : Lattice} {v : NodeId} {f : NodeFacts} {a c : Level} {o o' : Origin}

theorem get?_receive_of_get? (h : f.levels.get? c = some o') :
    ∃ o'', (f.receive g l v a o).levels.get? c = some o'' ∧ o''.NoFarther g o' := by
  obtain ⟨o'', ho''⟩ : (f.receive g l v a o).Holds c := holds_receive_of_holds ⟨o', h⟩
  refine ⟨o'', ho'', ?_⟩
  rcases origin_receive ho'' with hsame | ⟨rfl, rfl, hnear⟩ | ⟨-, hr, -⟩
  · rw [h] at hsame
    cases hsame
    exact .refl g o'
  · exact .of_isLT (hnear o' h)
  · exact absurd ⟨o', h⟩ (raised?_eq_some.1 hr).2.2

theorem get?_receive_self :
    ∃ o', (f.receive g l v a o).levels.get? a = some o' ∧ o'.NoFarther g o := by
  unfold receive
  cases hget : f.levels.get? a with
  | some known =>
    by_cases hlt : (o.order g known).isLT = true
    · exact ⟨o, by simp [hlt, SortedMap.get?_insert_self], .refl g o⟩
    · exact ⟨known, by simp [hlt, hget], .of_not_isLT hlt⟩
  | none =>
    cases hr : f.raised? l a o with
    | none => exact ⟨o, by simp [get?_add], .refl g o⟩
    | some b =>
      have hne : a ≠ b := (raised?_eq_some.1 hr).2.1.symm
      exact ⟨o, by simp [get?_add, hne], .refl g o⟩

end NodeFacts

namespace Flow

variable {g : Graph} {l : Lattice} {s s' s'' : Flow} {v : NodeId} {a : Level} {o : Origin} {d : Nat}
  {kind : ConflictKind}

/-- The level is known of the node, from no farther away than the origin. -/
def Knows (g : Graph) (s : Flow) (v : NodeId) (a : Level) (o : Origin) : Prop :=
  ∃ o', (s.factsOf v).levels.get? a = some o' ∧ o'.NoFarther g o

/-- What is known stays known from no farther away, and what is new lies within a distance. -/
structure Settles (g : Graph) (d : Nat) (s s' : Flow) : Prop where
  nearer : ∀ v a o, (s.factsOf v).levels.get? a = some o → s'.Knows g v a o
  within : ∀ v a o, (s'.factsOf v).levels.get? a = some o →
    (s.factsOf v).levels.get? a = some o ∨ o.distance ≤ d

theorem Knows.holds (h : s.Knows g v a o) : s.Holds v a := by
  obtain ⟨o', ho', -⟩ := h
  exact ⟨o', ho'⟩

theorem Knows.of_noFarther {o' : Origin} (h : s.Knows g v a o) (ho : o.NoFarther g o') :
    s.Knows g v a o' := by
  obtain ⟨known, hknown, hle⟩ := h
  exact ⟨known, hknown, hle.trans ho⟩

theorem Knows.mono (h : s.Knows g v a o) (hs : s.Settles g d s') : s'.Knows g v a o := by
  obtain ⟨known, hknown, hle⟩ := h
  exact (hs.nearer v a known hknown).of_noFarther hle

namespace Settles

theorem of_facts_eq (g : Graph) (d : Nat) (h : s'.facts = s.facts) : s.Settles g d s' where
  nearer v a o ho := ⟨o, by rwa [Spread.factsOf_of_facts_eq h], .refl g o⟩
  within v a o ho := .inl (by rwa [Spread.factsOf_of_facts_eq h] at ho)

theorem trans (h : s.Settles g d s') (h' : s'.Settles g d s'') : s.Settles g d s'' where
  nearer v a o ho := (h.nearer v a o ho).mono h'
  within v a o ho := by
    rcases h'.within v a o ho with ho | hd
    · exact h.within v a o ho
    · exact .inr hd

end Settles

theorem Arrival.knows (h : Arrival g l v a o kind s s') : s'.Knows g v a o := by
  rw [Knows, h.here]
  exact NodeFacts.get?_receive_self

theorem Arrival.settles (h : Arrival g l v a o kind s s') (hd : o.distance ≤ d) :
    s.Settles g d s' where
  nearer w c o' ho' := by
    by_cases hw : w = v
    · subst hw
      rw [Knows, h.here]
      exact NodeFacts.get?_receive_of_get? ho'
    · rw [Knows, h.factsOf_of_ne hw]
      exact ⟨o', ho', .refl g o'⟩
  within w c o' ho' := by
    by_cases hw : w = v
    · subst hw
      rw [h.here] at ho'
      rcases NodeFacts.origin_receive ho' with ho' | ⟨-, rfl, -⟩ | ⟨-, -, rfl⟩
      · exact .inl ho'
      · exact .inr hd
      · exact .inr (Nat.zero_le d)
    · exact .inl (by rwa [h.factsOf_of_ne hw] at ho')

end Flow

namespace Spread

open Enclave.Flow

variable {g : Graph} {l : Lattice} {members : List NodeId} {s s' : Flow} {u v : NodeId} {a : Level}
  {o : Origin} {e : Edge × EdgeId} {d : Nat} {budget : Budget}

/-- The level was admitted at the end of the edge, or is known there, one edge past the origin. -/
def Passed (g : Graph) (s : Flow) (a : Level) (o : Origin) (e : Edge × EdgeId) : Prop :=
  admits g e.1 a = true ∨ s.Knows g e.1.target a ⟨o.seed, o.distance + 1⟩

theorem Passed.mono (h : Passed g s a o e) (hs : s.Settles g d s') : Passed g s' a o e :=
  h.imp id fun h => h.mono hs

theorem Passed.of_noFarther {o' : Origin} (h : Passed g s a o e) (ho : o.NoFarther g o') :
    Passed g s a o' e :=
  h.imp id fun h => h.of_noFarther ho.step

theorem loop_settles {β : Type} {f : Flow → β → Except SolveError Flow} {D : β → Flow → Prop}
    {xs : List β} (hD : ∀ x s₁ s₂, D x s₁ → s₁.Settles g d s₂ → D x s₂)
    (hf : ∀ x ∈ xs, ∀ s₁, s.Settles g d s₁ →
      Ends (fun s₂ => s₁.Settles g d s₂ ∧ D x s₂) (fun _ => True) (f s₁ x)) :
    Ends (fun s' => s.Settles g d s' ∧ ∀ x ∈ xs, D x s') (fun _ => True) (xs.foldlM f s) := by
  -- every entry is still to come or has been dealt with
  refine Ends.mono (Ends.foldlM (P := fun rest s₁ => s.Settles g d s₁ ∧
    (∀ x ∈ rest, x ∈ xs) ∧ ∀ x ∈ xs, x ∈ rest ∨ D x s₁) ?_ ?_) ?_ fun _ h => h
  · intro x rest s₁ h
    obtain ⟨hs₁, hsub, hdone⟩ := h
    refine (hf x (hsub x List.mem_cons_self) s₁ hs₁).mono ?_ fun _ h => h
    intro s₂ h
    obtain ⟨hs₂, hx⟩ := h
    refine ⟨hs₁.trans hs₂, fun y hy => hsub y (List.mem_cons_of_mem x hy), fun y hy => ?_⟩
    rcases hdone y hy with hy | hy
    · rcases List.mem_cons.1 hy with rfl | hy
      · exact .inr hx
      · exact .inl hy
    · exact .inr (hD y s₁ s₂ hy hs₂)
  · exact ⟨.of_facts_eq g d rfl, fun _ h => h, fun _ h => .inl h⟩
  · intro s' h
    obtain ⟨hs', -, hdone⟩ := h
    exact ⟨hs', fun x hx => (hdone x hx).resolve_left List.not_mem_nil⟩

theorem take_settles (g : Graph) (d : Nat) (s : Flow) :
    Ends (s.Settles g d) (fun _ => True) s.take := by
  refine (take_ends (g := g) False.elim).mono ?_ fun _ _ => trivial
  intro s₁ h
  obtain ⟨rfl, -⟩ := h
  exact .of_facts_eq g d rfl

section Functions

variable (hl : l.Lawful)

include hl

theorem arrive_settles (ha : a < l.size) (ho : o.distance ≤ d) (via : Option Kinds) :
    Ends (fun s' => s.Settles g d s' ∧ s'.Knows g v a o) (fun _ => True)
      (arrive g l s v a o via) :=
  (arrive_ends hl ha via).mono (fun _ h => ⟨h.settles ho, h.knows⟩) fun _ _ => trivial

theorem deliver_settles (ha : a < l.size) (ho : o.distance < d) :
    Ends (fun s' => s.Settles g d s' ∧ Passed g s' a o e) (fun _ => True)
      (deliver g l a o s e) := by
  have hstep : Ends (fun next => next = ⟨o.seed, o.distance + 1⟩) (fun _ => True)
      (o.step.mapError SolveError.overflow) := by
    rw [Origin.step, addBelow]
    split
    · rfl
    · trivial
  refine hstep.bind fun next hnext => ?_
  subst hnext
  refine (take_settles g d s).bind fun s₁ hs₁ => ?_
  cases hadm : admits g e.1 a with
  | true => exact Ends.of_ok ⟨hs₁, .inl hadm⟩
  | false =>
    refine (arrive_settles hl ha ho _).mono (fun s' h => ?_) fun _ h => h
    have hbook : s₁.Settles g d { s₁ with carried := s₁.carried.insert (e.2, a) } :=
      .of_facts_eq g d rfl
    exact ⟨(hs₁.trans hbook).trans h.1, .inr h.2⟩

theorem deliverAll_settles (ha : a < l.size) (ho : o.distance < d) (es : List (Edge × EdgeId)) :
    Ends (fun s' => s.Settles g d s' ∧ ∀ e ∈ es, Passed g s' a o e) (fun _ => True)
      (es.foldlM (deliver g l a o) s) :=
  loop_settles (fun _ _ _ h hs => h.mono hs) fun _ _ _ _ => deliver_settles hl ha ho

theorem forward_settles (ha : a < l.size) (ho : (s.factsOf v).levels.get? a = some o)
    (hd : o.distance < d) :
    Ends (fun s' => s.Settles g d s' ∧ ∀ e ∈ onwardEdges g v, Passed g s' a o e) (fun _ => True)
      (forward g l s (v, a)) := by
  rw [forward, ho]
  exact deliverAll_settles hl ha hd _

/-- After a round, what was pending is known one edge on. -/
theorem round_settles (hlt : ∀ v a, s.Holds v a → a < l.size)
    (hheld : ∀ p ∈ s.pending.toList, s.Holds p.1 p.2)
    (hd : ∀ v a o, (s.factsOf v).levels.get? a = some o → o.distance < d) :
    Ends (fun s' => s.Settles g d s' ∧ ∀ v a, (v, a) ∈ s.pending.toList →
        ∀ o, (s.factsOf v).levels.get? a = some o → ∀ e ∈ onwardEdges g v, Passed g s' a o e)
      (fun _ => True) (round g l s) := by
  let cleared : Flow := { s with pending := ∅ }
  have hcleared : s.Settles g d cleared := .of_facts_eq g d rfl
  refine Ends.mono (loop_settles (s := cleared) (d := d) (D := fun (p : NodeId × Level) s₁ =>
    ∀ o, (s.factsOf p.1).levels.get? p.2 = some o → ∀ e ∈ onwardEdges g p.1, Passed g s₁ p.2 o e)
    (fun p s₁ s₂ h hs o ho e he => (h o ho e he).mono hs) ?_)
    (fun s' h => ⟨hcleared.trans h.1, fun v a => h.2 (v, a)⟩) fun _ h => h
  intro p hp s₁ hs₁
  obtain ⟨v, a⟩ := p
  obtain ⟨o, ho⟩ := hheld _ hp
  -- when its turn comes, a fact may have come nearer, but not moved away
  obtain ⟨o₁, ho₁, hnear⟩ := hs₁.nearer v a o ho
  have hd₁ : o₁.distance < d := Nat.lt_of_le_of_lt hnear.distance_le (hd v a o ho)
  refine (forward_settles hl (hlt v a ⟨o, ho⟩) ho₁ hd₁).mono ?_ fun _ h => h
  intro s₂ h
  refine ⟨h.1, fun o' ho' e he => ?_⟩
  have hsame : o' = o := Option.some.inj (ho'.symm.trans ho)
  exact (h.2 e he).of_noFarther (hsame ▸ hnear)

variable (hg : g.Over l)

include hg

theorem plant_settles (d : Nat) (v : NodeId) :
    Ends (fun s' => s.Settles g d s' ∧
        ∀ a, g.nodes[v]?.bind (·.seed?) = some a → s'.Knows g v a (.start v))
      (fun _ => True) (plant g l s v) := by
  rw [plant]
  cases hseed : g.nodes[v]?.bind (·.seed?) with
  | none => exact Ends.of_ok ⟨.of_facts_eq g d rfl, fun a ha => by cases ha⟩
  | some a =>
    refine (take_settles g d s).bind fun s₁ hs₁ => ?_
    refine (arrive_settles hl (hg.seed_lt hseed) (Nat.zero_le d) none).mono ?_ fun _ h => h
    intro s' h
    refine ⟨hs₁.trans h.1, fun b hb => ?_⟩
    cases hb
    exact h.2

theorem sendReturn_settles (hd : ∀ a, g.nodes[v]?.bind (·.singleReturn?) = some a → 0 < d) :
    Ends (fun s' => s.Settles g d s' ∧ ∀ a, g.nodes[v]?.bind (·.singleReturn?) = some a →
        ∀ e ∈ returnEdges g v, Passed g s' a (.start v) e)
      (fun _ => True) (sendReturn g l s v) := by
  rw [sendReturn]
  cases hret : g.nodes[v]?.bind (·.singleReturn?) with
  | none => exact Ends.of_ok ⟨.of_facts_eq g d rfl, fun a ha => by cases ha⟩
  | some a =>
    refine (deliverAll_settles hl (hg.return_lt hret) (hd a hret) _).mono ?_ fun _ h => h
    intro s' h
    refine ⟨h.1, fun b hb => ?_⟩
    cases hb
    exact h.2

/-- At the start every seed is known where it stands, and every return level one edge away. -/
theorem launch_settles
    (hd : ∀ (v : NodeId) (a : Level), g.nodes[v]?.bind (·.singleReturn?) = some a → 0 < d) :
    Ends (fun s => (∀ v a o, (s.factsOf v).levels.get? a = some o → o.distance ≤ d) ∧
        (∀ v ∈ members, ∀ a, g.nodes[v]?.bind (·.seed?) = some a → s.Knows g v a (.start v)) ∧
        ∀ v ∈ members, ∀ a, g.nodes[v]?.bind (·.singleReturn?) = some a →
          ∀ e ∈ returnEdges g v, Passed g s a (.start v) e)
      (fun _ => True) (launch g l members budget) := by
  refine Ends.bind (loop_settles (d := d) (D := fun v s =>
    ∀ a, g.nodes[v]?.bind (·.seed?) = some a → s.Knows g v a (.start v))
    (fun v s₁ s₂ h hs a ha => (h a ha).mono hs) fun v _ s₁ _ => plant_settles hl hg d v) ?_
  intro s₁ h₁
  refine Ends.mono (loop_settles (d := d) (D := fun v s =>
    ∀ a, g.nodes[v]?.bind (·.singleReturn?) = some a →
      ∀ e ∈ returnEdges g v, Passed g s a (.start v) e)
    (fun v s₁ s₂ h hs a ha e he => (h a ha e he).mono hs)
    fun v _ s₁ _ => sendReturn_settles hl hg (hd v)) ?_ fun _ h => h
  intro s₂ h₂
  refine ⟨fun v a o ho => ?_, fun v hv a ha => (h₁.2 v hv a ha).mono h₂.1, h₂.2⟩
  -- nothing was known before
  rcases (h₁.1.trans h₂.1).within v a o ho with hnone | hle
  · cases hnone
  · exact hle

end Functions

end Spread

end Enclave
