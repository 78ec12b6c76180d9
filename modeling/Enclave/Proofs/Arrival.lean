import Enclave.Proofs.Receiving

/-!
# Enclave.Proofs.Arrival

What `Spread.arrive` does to a flow. `Flow.Arrival` says everything that one arrival changes; later
modules reason from it and do not open the function again.
-/

namespace Enclave

attribute [local instance] lexOrd

namespace Solution

def factsOf (s : Solution) (v : NodeId) : NodeFacts := (s.facts.get? v).getD {}

def Holds (s : Solution) (v : NodeId) (a : Level) : Prop := (s.factsOf v).Holds a

end Solution

namespace Flow

variable {g : Graph} {l : Lattice} {s s' s'' : Flow} {v w : NodeId} {a b : Level} {o : Origin}
  {kind : ConflictKind}

def Holds (s : Flow) (v : NodeId) (a : Level) : Prop := (s.factsOf v).Holds a

theorem factsOf_insert {f : NodeFacts} {facts : SortedMap NodeId NodeFacts}
    (h : s'.facts = facts.insert v f) : s'.factsOf v = f := by
  rw [factsOf, h, SortedMap.get?_insert_self, Option.getD_some]

/-- Everything that the arrival of one level at one node changes. -/
structure Arrival (g : Graph) (l : Lattice) (v : NodeId) (a : Level) (o : Origin)
    (kind : ConflictKind) (s s' : Flow) : Prop where
  budget : s'.budget = s.budget
  carried : s'.carried = s.carried
  here : s'.factsOf v = (s.factsOf v).receive g l v a o
  elsewhere : ∀ w, w ≠ v → s'.facts.get? w = s.facts.get? w
  pending : ∀ p, p ∈ s'.pending.toList ↔
    p ∈ s.pending.toList ∨ (¬ s.Holds p.1 p.2 ∧ s'.Holds p.1 p.2)
  witnesses : s.witnesses.recordAll (Spread.testimony g l (s.factsOf v) v a o kind) =
    .ok s'.witnesses

namespace Arrival

theorem factsOf_of_ne (h : Arrival g l v a o kind s s') (hw : w ≠ v) :
    s'.factsOf w = s.factsOf w := by
  rw [factsOf, factsOf, h.elsewhere w hw]

theorem holds (h : Arrival g l v a o kind s s') : s'.Holds v a := by
  rw [Holds, h.here]
  exact NodeFacts.holds_receive_self

theorem holds_of_holds (h : Arrival g l v a o kind s s') (hw : s.Holds w b) : s'.Holds w b := by
  by_cases hv : w = v
  · subst hv
    rw [Holds, h.here]
    exact NodeFacts.holds_receive_of_holds hw
  · rwa [Holds, h.factsOf_of_ne hv]

end Arrival

end Flow

namespace Spread

open NodeFacts Enclave.Flow

variable {g : Graph} {l : Lattice} {s s' : Flow} {v : NodeId} {a b : Level} {o : Origin}
  {kind : ConflictKind} {ws : WitnessSet}

theorem recordAll_append (xs ys : List Witness) :
    ws.recordAll (xs ++ ys) = (do (← ws.recordAll xs).recordAll ys) := by
  simp only [WitnessSet.recordAll, List.foldlM_append]

/-- The flow in which a new level stands at a node, with the evidence it gave. -/
def settled (l : Lattice) (s : Flow) (v : NodeId) (a : Level) (o : Origin) (ws : WitnessSet) :
    Flow :=
  { s with
    witnesses := ws
    facts := s.facts.insert v ((s.factsOf v).add l a o)
    pending := s.pending.insert (v, a) }

theorem settle_eq : settle g l s v a o kind = (do
    let ws ← s.witnesses.recordAll (evidence g l (s.factsOf v) v a o kind)
    return (settled l s v a o ws, (s.factsOf v).raised? l a o)) := rfl

theorem factsOf_settled : (settled l s v a o ws).factsOf v = (s.factsOf v).add l a o :=
  factsOf_insert rfl

theorem get?_facts_settled {w : NodeId} (h : w ≠ v) :
    (settled l s v a o ws).facts.get? w = s.facts.get? w :=
  SortedMap.get?_insert_of_ne h

theorem mem_pending_settled {p : NodeId × Level} :
    p ∈ (settled l s v a o ws).pending.toList ↔ p = (v, a) ∨ p ∈ s.pending.toList :=
  SortedSet.mem_insert

theorem holds_settled {w : NodeId} (h : w ≠ v) :
    (settled l s v a o ws).Holds w b ↔ s.Holds w b := by
  rw [Flow.Holds, Flow.Holds, factsOf, factsOf, get?_facts_settled h]

theorem holds_settled_self : (settled l s v a o ws).Holds v b ↔ b = a ∨ s.Holds v b := by
  rw [Flow.Holds, factsOf_settled, holds_add]
  rfl

theorem arrival_improve {known : Origin} (h : (s.factsOf v).levels.get? a = some known) :
    Arrival g l v a o kind s (improve g s v a known o) := by
  have hstays : ∀ s₁ : Flow, (∀ w, w ≠ v → s₁.facts.get? w = s.facts.get? w) →
      s₁.factsOf v = (s.factsOf v).receive g l v a o →
      ∀ p : NodeId × Level, ¬ (¬ s.Holds p.1 p.2 ∧ s₁.Holds p.1 p.2) := by
    rintro s₁ helse hhere ⟨w, c⟩ ⟨hnew, hold⟩
    by_cases hw : w = v
    · subst hw
      rw [Flow.Holds, hhere, holds_receive_iff_of_holds ⟨known, h⟩] at hold
      exact hnew hold
    · rw [Flow.Holds, factsOf, helse w hw] at hold
      exact hnew hold
  have hnone : s.witnesses.recordAll (testimony g l (s.factsOf v) v a o kind) =
      .ok s.witnesses := by
    rw [testimony, h]
    rfl
  rw [improve]
  split
  · rename_i hlt
    have hhere : (s.factsOf v).receive g l v a o =
        ⟨(s.factsOf v).state, (s.factsOf v).levels.insert a o⟩ := by
      rw [receive, h]
      dsimp only
      rw [if_pos hlt]
    have helse : ∀ w, w ≠ v → (s.facts.insert v ((s.factsOf v).receive g l v a o)).get? w =
        s.facts.get? w := fun w hw => SortedMap.get?_insert_of_ne hw
    dsimp only
    rw [← hhere]
    refine ⟨rfl, rfl, factsOf_insert rfl, helse, fun p => ⟨.inl, ?_⟩, hnone⟩
    rintro (hp | hp)
    · exact hp
    · exact absurd hp (hstays _ helse (factsOf_insert rfl) p)
  · rename_i hlt
    have hhere : s.factsOf v = (s.factsOf v).receive g l v a o := by
      rw [receive, h]
      dsimp only
      rw [if_neg hlt]
    refine ⟨rfl, rfl, hhere, fun _ _ => rfl, fun p => ⟨.inl, ?_⟩, hnone⟩
    rintro (hp | ⟨hp, hp'⟩)
    · exact hp
    · exact absurd hp' hp

theorem arrival_settled (hnew : ¬ s.Holds v a) (hr : (s.factsOf v).raised? l a o = none)
    (hws : s.witnesses.recordAll (evidence g l (s.factsOf v) v a o kind) = .ok ws) :
    Arrival g l v a o kind s (settled l s v a o ws) := by
  refine ⟨rfl, rfl, ?_, fun w hw => get?_facts_settled hw, fun p => ?_, ?_⟩
  · rw [factsOf_settled, receive, not_holds_iff.1 hnew, hr]
  · rw [mem_pending_settled]
    obtain ⟨w, c⟩ := p
    by_cases hw : w = v
    · subst hw
      rw [holds_settled_self, Prod.mk.injEq]
      constructor
      · rintro (⟨-, rfl⟩ | hp)
        · exact .inr ⟨hnew, .inl rfl⟩
        · exact .inl hp
      · rintro (hp | ⟨hc, rfl | hc'⟩)
        · exact .inr hp
        · exact .inl ⟨rfl, rfl⟩
        · exact absurd hc' hc
    · rw [holds_settled hw, Prod.mk.injEq]
      tauto
  · rw [testimony, not_holds_iff.1 hnew, hr]
    dsimp only
    rw [List.append_nil]
    exact hws

theorem arrival_raised {ws' : WitnessSet} (hnew : ¬ s.Holds v a)
    (hr : (s.factsOf v).raised? l a o = some b)
    (hws : s.witnesses.recordAll (evidence g l (s.factsOf v) v a o kind) = .ok ws)
    (hws' : ws.recordAll (evidence g l ((s.factsOf v).add l a o) v b (.start v) kind) = .ok ws') :
    Arrival g l v a o kind s (settled l (settled l s v a o ws) v b (.start v) ws') := by
  refine ⟨rfl, rfl, ?_, fun w hw => ?_, fun p => ?_, ?_⟩
  · rw [factsOf_settled, factsOf_settled, receive, not_holds_iff.1 hnew, hr]
  · rw [get?_facts_settled hw, get?_facts_settled hw]
  · rw [mem_pending_settled, mem_pending_settled]
    obtain ⟨w, c⟩ := p
    by_cases hw : w = v
    · subst hw
      have hb : ¬ s.Holds w b := (raised?_eq_some.1 hr).2.2
      rw [holds_settled_self, holds_settled_self, Prod.mk.injEq, Prod.mk.injEq]
      constructor
      · rintro (⟨-, rfl⟩ | ⟨-, rfl⟩ | hp)
        · exact .inr ⟨hb, .inl rfl⟩
        · exact .inr ⟨hnew, .inr (.inl rfl)⟩
        · exact .inl hp
      · rintro (hp | ⟨hc, rfl | rfl | hc'⟩)
        · exact .inr (.inr hp)
        · exact .inl ⟨rfl, rfl⟩
        · exact .inr (.inl ⟨rfl, rfl⟩)
        · exact absurd hc' hc
    · rw [holds_settled hw, holds_settled hw, Prod.mk.injEq, Prod.mk.injEq]
      tauto
  · rw [testimony, not_holds_iff.1 hnew, hr]
    dsimp only
    rw [recordAll_append, hws]
    exact hws'

def kindOf (via : Option Kinds) : ConflictKind := (via.map ConflictKind.ofKinds).getD .data

theorem raised?_add_raised (hl : l.Lawful) {f : NodeFacts} (h : f.raised? l a o = some b) :
    (f.add l a o).raised? l b (.start v) = none := by
  cases hr : (f.add l a o).raised? l b (.start v) with
  | none => rfl
  | some c =>
    obtain ⟨hj, hcb, -⟩ := raised?_eq_some.1 hr
    rcases joined?_add_raised hl h with hb | hb
    · exact absurd (Option.some.inj (hj.symm.trans hb)) hcb
    · rw [hj] at hb
      cases hb

theorem arriveWithin_raised_ends (hl : l.Lawful) {n : Nat} (hnew : ¬ s.Holds v a)
    (hr : (s.factsOf v).raised? l a o = some b)
    (hws : s.witnesses.recordAll (evidence g l (s.factsOf v) v a o kind) = .ok ws) :
    Ends (Arrival g l v a o kind s)
      (fun c => s.witnesses.recordAll (testimony g l (s.factsOf v) v a o kind) = .error c)
      (arriveWithin g l v kind (n + 1) (settled l s v a o ws) b (.start v)) := by
  have hb : ((settled l s v a o ws).factsOf v).levels.get? b = none := by
    rw [factsOf_settled, ← not_holds_iff, holds_add, not_or]
    exact (raised?_eq_some.1 hr).2
  rw [arriveWithin, hb]
  dsimp only
  rw [settle_eq, factsOf_settled]
  change Ends _ _ (Except.bind (Except.bind (ws.recordAll _) _) _)
  cases hws' : ws.recordAll (evidence g l ((s.factsOf v).add l a o) v b (.start v) kind) with
  | error c =>
    show s.witnesses.recordAll _ = .error c
    rw [testimony, not_holds_iff.1 hnew, hr]
    dsimp only
    rw [recordAll_append, hws]
    exact hws'
  | ok ws' =>
    simp only [Except.bind, pure, Except.pure, raised?_add_raised hl hr]
    exact arrival_raised hnew hr hws hws'

/-- One level raises one join at most, so that two arrivals are all there are. -/
theorem arriveWithin_ends (hl : l.Lawful) (n : Nat) :
    Ends (Arrival g l v a o kind s)
      (fun c => s.witnesses.recordAll (testimony g l (s.factsOf v) v a o kind) = .error c)
      (arriveWithin g l v kind (n + 2) s a o) := by
  rw [arriveWithin]
  split
  · rename_i known hknown
    exact arrival_improve hknown
  · rename_i hnone
    have hnew : ¬ s.Holds v a := not_holds_iff.2 hnone
    rw [settle_eq]
    cases hws : s.witnesses.recordAll (evidence g l (s.factsOf v) v a o kind) with
    | error c =>
      show s.witnesses.recordAll _ = .error c
      rw [testimony, hnone]
      dsimp only
      rw [recordAll_append, hws]
      rfl
    | ok ws =>
      simp only [bind, Except.bind, pure, Except.pure]
      split
      · rename_i hr
        exact arrival_settled hnew hr hws
      · rename_i b hr
        exact arriveWithin_raised_ends hl hnew hr hws

/--
An arrival ends in a flow that `Arrival` describes, or fails because a witness could not be
recorded; the bound on the arrivals of raised joins is not reached.
-/
theorem arrive_ends (hl : l.Lawful) (ha : a < l.size) (via : Option Kinds) :
    Ends (Arrival g l v a o (kindOf via) s)
      (fun e => ∃ c, e = .overflow c ∧
        s.witnesses.recordAll (testimony g l (s.factsOf v) v a o (kindOf via)) = .error c)
      (arrive g l s v a o via) := by
  have hpos : 0 < l.size := Nat.zero_lt_of_lt ha
  obtain ⟨n, hn⟩ : ∃ n, l.size + 1 = n + 2 := ⟨l.size - 1, by omega⟩
  rw [arrive, hn]
  exact (arriveWithin_ends hl n).mapError fun c hc => ⟨c, rfl, hc⟩

end Spread

end Enclave
