import Enclave.Proofs.Delivering
import Mathlib.Algebra.BigOperators.Group.Finset.Basic
import Mathlib.Algebra.Order.BigOperators.Group.Finset

/-!
# Enclave.Proofs.Running

A whole run over a set of nodes that no edge leaves. Every fact goes on along the edges of its node
in exactly one round, so the steps taken and the steps due for what has not gone on yet have a sum
that no round changes (`due_eq`). From this follow both that the rounds end with nothing pending and
how many steps they take at most.

* `round_ends`, `rounds_ends`: what one round and all of them keep, and why they may fail.
* `run_ends`: a run ends with every seed, every return level and every fact delivered, within
  `memberSteps` for each of its nodes.
-/

namespace Enclave.Spread

attribute [local instance] lexOrd

open NodeFacts Enclave.Flow

variable {g : Graph} {l : Lattice} {members : List NodeId} {s s' : Flow} {v : NodeId}
  {a : Level} {enough : Prop} {budget : Budget}

/-- Between rounds, what is known is pending or has gone on. -/
structure Afloat (g : Graph) (l : Lattice) (members : List NodeId) (s : Flow) : Prop where
  reachable : Reachable g l members s
  held : ∀ p ∈ s.pending.toList, s.Holds p.1 p.2
  gone : ∀ v a, s.Holds v a → (v, a) ∈ s.pending.toList ∨
    ∀ e ∈ onwardEdges g v, Delivered g s.solution e a

open Classical in
/-- The steps it takes for all levels to travel on that are pending or not known yet. -/
noncomputable def due (g : Graph) (l : Lattice) (members : List NodeId) (s : Flow) : Nat :=
  ∑ p ∈ members.toFinset ×ˢ Finset.range l.size with
    p ∈ s.pending.toList ∨ ¬ s.Holds p.1 p.2, (onwardEdges g p.1).length

theorem due_le (g : Graph) (l : Lattice) (members : List NodeId) (s : Flow) :
    due g l members s ≤ ∑ v ∈ members.toFinset, l.size * (onwardEdges g v).length := by
  classical
  calc due g l members s
      ≤ ∑ p ∈ members.toFinset ×ˢ Finset.range l.size, (onwardEdges g p.1).length :=
        Finset.sum_le_sum_of_subset (Finset.filter_subset _ _)
    _ = ∑ v ∈ members.toFinset, l.size * (onwardEdges g v).length := by
        rw [Finset.sum_product]
        simp

theorem sum_le_due (hin : ∀ p ∈ s.pending.toList, p.1 ∈ members ∧ p.2 < l.size) :
    (s.pending.toList.map fun p => (onwardEdges g p.1).length).sum ≤ due g l members s := by
  classical
  rw [← List.sum_toFinset _ (SortedSet.nodup_toList _), due]
  refine Finset.sum_le_sum_of_subset fun p hp => ?_
  have hp := List.mem_toFinset.1 hp
  simp [hin p hp, hp]

/-- What a round sends is due before it and no longer after it. -/
theorem due_eq (hin : ∀ p ∈ s.pending.toList, p.1 ∈ members ∧ p.2 < l.size)
    (hheld : ∀ p ∈ s.pending.toList, s.Holds p.1 p.2)
    (hholds : ∀ v a, s.Holds v a → s'.Holds v a)
    (hnew : ∀ p, p ∈ s'.pending.toList ↔ ¬ s.Holds p.1 p.2 ∧ s'.Holds p.1 p.2) :
    due g l members s =
      (s.pending.toList.map fun p => (onwardEdges g p.1).length).sum + due g l members s' := by
  classical
  rw [← List.sum_toFinset _ (SortedSet.nodup_toList _), due, due, ← Finset.sum_union]
  · refine Finset.sum_congr (Finset.ext fun p => ?_) fun _ _ => rfl
    have h₁ := hin p
    have h₂ := hholds p.1 p.2
    simp only [Finset.mem_union, Finset.mem_filter, Finset.mem_product, List.mem_toFinset,
      Finset.mem_range, hnew]
    tauto
  · refine Finset.disjoint_left.2 fun p hp hp' => ?_
    have h₁ := hheld p (List.mem_toFinset.1 hp)
    rcases (Finset.mem_filter.1 hp').2 with h | h
    · exact ((hnew p).1 h).1 h₁
    · exact h (hholds _ _ h₁)

/-- The most steps that a run spends on one of its nodes. -/
def memberSteps (g : Graph) (l : Lattice) (v : NodeId) : Nat :=
  seedSteps g v + l.size * (g.successors v).length

theorem returnSteps_add_le (hg : g.Over l) (v : NodeId) :
    returnSteps g v + l.size * (onwardEdges g v).length ≤ l.size * (g.successors v).length := by
  cases hret : g.nodes[v]?.bind (·.singleReturn?) with
  | none => simp [returnSteps, onwardEdges, hret]
  | some a =>
    have hpos : 1 ≤ l.size := Nat.zero_lt_of_lt (hg.return_lt hret)
    have hsplit : (g.successors v).length =
        (returnEdges g v).length + (onwardEdges g v).length := by
      rw [returnEdges, onwardEdges, hret]
      exact List.length_eq_length_filter_add _
    have hret' : returnSteps g v = (returnEdges g v).length := by simp [returnSteps, hret]
    rw [hsplit, hret', Nat.mul_add]
    exact Nat.add_le_add_right (Nat.le_mul_of_pos_left _ hpos) _

section Functions

variable (hl : l.Lawful) (hg : g.Over l) (hcl : g.Closed)
  (hin : ∀ e ∈ g.edges.toList, e.source ∈ members → e.target ∈ members)

include hl hg hcl

theorem launch_ends
    (henough : enough → budget.used + (members.map (seedSteps g)).sum +
      (members.map (returnSteps g)).sum ≤ budget.cap) :
    Ends (fun s => Afloat g l members s ∧ Grows { budget } s ∧
        s.budget.used = budget.used + (members.map (seedSteps g)).sum +
          (members.map (returnSteps g)).sum ∧
        (∀ v ∈ members, ∀ a, g.nodes[v]?.bind (·.seed?) = some a → s.Holds v a) ∧
        ∀ v ∈ members, ∀ a, g.nodes[v]?.bind (·.singleReturn?) = some a →
          ∀ e ∈ returnEdges g v, Delivered g s.solution e a)
      (Fails g budget.cap enough) (launch g l members budget) := by
  let s₀ : Flow := { budget }
  have hnone : ∀ v a, ¬ s₀.Holds v a := fun v a => not_holds_empty
  refine Ends.bind (loop_ends (s := s₀) (I := Reachable g l members)
    (D := fun v s => ∀ a, g.nodes[v]?.bind (·.seed?) = some a → s.Holds v a)
    (fun v s s' h hext a ha => hext.holds v a (h a ha))
    (fun v hv s hs => plant_ends hl hg hcl hs hv) (.start rfl rfl)
    fun h => (Nat.le_add_right _ _).trans (henough h)) ?_
  rintro s₁ ⟨hs₁, hext₁, hused₁, hseeds⟩
  have hcap : s₁.budget.cap = budget.cap := hext₁.cap
  rw [← hcap]
  refine Ends.mono (loop_ends (I := Reachable g l members)
    (D := fun v s => ∀ a, g.nodes[v]?.bind (·.singleReturn?) = some a →
      ∀ e ∈ returnEdges g v, Delivered g s.solution e a)
    (fun v s s' h hext a ha e he => (h a ha e he).mono hext.toGrows)
    (fun v hv s hs => sendReturn_ends hl hg hcl hs hv) hs₁
    fun h => by rw [hused₁, hcap]; exact henough h) ?_ fun _ h => h
  rintro s₂ ⟨hs₂, hext₂, hused₂, hreturns⟩
  have hext := hext₁.trans hext₂
  refine ⟨⟨hs₂, fun p hp => ?_, fun v a ha => .inl ?_⟩, hext.toGrows, by rw [hused₂, hused₁],
    fun v hv a ha => hext₂.holds v a (hseeds v hv a ha), hreturns⟩
  · rcases (hext.pending p).1 hp with h | h
    · exact absurd h List.not_mem_nil
    · exact h.2
  · exact (hext.pending (v, a)).2 (.inr ⟨hnone v a, ha⟩)

include hin

theorem round_ends (hs : Afloat g l members s)
    (henough : enough → s.budget.used + due g l members s ≤ s.budget.cap) :
    Ends (fun s' => Afloat g l members s' ∧ s.Grows s' ∧
        s'.budget.used + due g l members s' = s.budget.used + due g l members s ∧
        (s'.budget.used = s.budget.used → s'.pending.toList = []))
      (Fails g s.budget.cap enough) (round g l s) := by
  have hwithin : ∀ p ∈ s.pending.toList, p.1 ∈ members ∧ p.2 < l.size := fun p hp =>
    ⟨hs.reachable.mem_of_holds hin (hs.held p hp), hs.reachable.lt hl hg (hs.held p hp)⟩
  let cleared : Flow := { s with pending := ∅ }
  have hcleared : Reachable g l members cleared := hs.reachable.book rfl rfl fun _ h => h
  -- the facts sent are those that were pending; those that become known wait for the next round
  have hpend : ∀ s', cleared.Extends s' → ∀ p, p ∈ s'.pending.toList ↔
      ¬ s.Holds p.1 p.2 ∧ s'.Holds p.1 p.2 := fun s' hext p =>
    (hext.pending p).trans ⟨fun h => h.resolve_left List.not_mem_nil, .inr⟩
  have hdue : ∀ s', cleared.Extends s' → due g l members s =
      (s.pending.toList.map fun p => (onwardEdges g p.1).length).sum + due g l members s' :=
    fun s' hext => due_eq hwithin hs.held hext.holds (hpend s' hext)
  refine Ends.mono (loop_ends (s := cleared)
    (I := fun s₁ => Reachable g l members s₁ ∧ cleared.Grows s₁)
    (D := fun (p : NodeId × Level) s₁ => ∀ e ∈ onwardEdges g p.1, Delivered g s₁.solution e p.2)
    (c := fun p => (onwardEdges g p.1).length)
    (fun p s₁ s₂ h hext e he => (h e he).mono hext.toGrows) ?_ ⟨hcleared, .refl _⟩ fun h => ?_)
    ?_ fun _ h => h
  · rintro ⟨v, a⟩ hp s₁ ⟨hs₁, hgrows⟩ hroom
    refine (forward_ends hl hg hcl hs₁ (hgrows.holds v a (hs.held _ hp)) hroom).mono ?_
      fun _ h => h
    rintro s₂ ⟨hs₂, hext, hused, hdone⟩
    exact ⟨⟨hs₂, hgrows.trans hext.toGrows⟩, hext, hused, hdone⟩
  · exact (Nat.add_le_add_left (sum_le_due hwithin) _).trans (henough h)
  · rintro s' ⟨⟨hs', -⟩, hext, hused, hdone⟩
    have hgrows : s.Grows s' := ⟨hext.cap, hext.used, hext.fits, hext.holds, hext.carried⟩
    refine ⟨⟨hs', fun p hp => ((hpend s' hext p).1 hp).2, fun v a ha => ?_⟩, hgrows, ?_,
      fun h => congrArg SortedSet.toList (hext.idle h)⟩
    · by_cases hold : s.Holds v a
      · refine .inr ?_
        rcases hs.gone v a hold with h | h
        · exact hdone _ h
        · exact fun e he => (h e he).mono hgrows
      · exact .inl ((hpend s' hext (v, a)).2 ⟨hold, ha⟩)
    · rw [hused, hdue s' hext]
      exact Nat.add_assoc _ _ _

/-- The rounds end with nothing pending: the steps left bound their number. -/
theorem rounds_ends {fuel : Nat} (hs : Afloat g l members s)
    (hfits : s.budget.used ≤ s.budget.cap)
    (hfuel : s.budget.left + 2 ≤ fuel ∨ (s.pending.toList = [] ∧ 1 ≤ fuel))
    (henough : enough → s.budget.used + due g l members s ≤ s.budget.cap) :
    Ends (fun s' => Afloat g l members s' ∧ s.Grows s' ∧
        s'.budget.used + due g l members s' = s.budget.used + due g l members s ∧
        s'.pending.toList = [])
      (Fails g s.budget.cap enough) (rounds g l fuel s) := by
  induction fuel generalizing s with
  | zero => omega
  | succ fuel ih =>
    rw [rounds]
    split
    · rename_i hempty
      exact Ends.of_ok ⟨hs, .refl s, rfl, SortedSet.isEmpty_iff.1 hempty⟩
    · rename_i hpending
      have hroom : s.budget.left + 2 ≤ fuel + 1 :=
        hfuel.resolve_right fun h => hpending (SortedSet.isEmpty_iff.2 h.1)
      refine (round_ends hl hg hcl hin hs henough).bind ?_
      rintro s₁ ⟨hs₁, hgrows, hsum, hidle⟩
      have hcap := hgrows.cap
      have hused := hgrows.used
      have hfits₁ := hgrows.fits hfits
      rw [← hcap]
      refine (ih hs₁ hfits₁ ?_ fun h => ?_).mono ?_ fun _ h => h
      · -- a round that takes no step makes nothing known
        rw [Budget.left] at hroom ⊢
        by_cases hsame : s₁.budget.used = s.budget.used
        · exact .inr ⟨hidle hsame, by omega⟩
        · exact .inl (by omega)
      · have := henough h
        omega
      · rintro s₂ ⟨hs₂, hgrows₂, hsum₂, hdone⟩
        exact ⟨hs₂, hgrows.trans hgrows₂, hsum₂.trans hsum, hdone⟩

/-- Everything that can travel has travelled. -/
structure Finished (g : Graph) (members : List NodeId) (s : Flow) : Prop where
  seeds : ∀ v ∈ members, ∀ a, g.nodes[v]?.bind (·.seed?) = some a → s.Holds v a
  returns : ∀ v ∈ members, ∀ a, g.nodes[v]?.bind (·.singleReturn?) = some a →
    ∀ e ∈ returnEdges g v, Delivered g s.solution e a
  onward : ∀ v a, s.Holds v a → ∀ e ∈ onwardEdges g v, Delivered g s.solution e a

theorem run_ends (hnodup : members.Nodup) (hfits : budget.used ≤ budget.cap)
    (henough : enough → budget.used + (members.map (memberSteps g l)).sum ≤ budget.cap) :
    Ends (fun r => ∃ s, r = (s.solution, s.budget) ∧ Reachable g l members s ∧
        Finished g members s ∧ s.budget.cap = budget.cap ∧ s.budget.used ≤ budget.cap ∧
        s.budget.used ≤ budget.used + (members.map (memberSteps g l)).sum)
      (Fails g budget.cap enough) (run g l members budget) := by
  have hsteps : (members.map (seedSteps g)).sum + (members.map (returnSteps g)).sum +
      ∑ v ∈ members.toFinset, l.size * (onwardEdges g v).length ≤
      (members.map (memberSteps g l)).sum := by
    rw [List.sum_toFinset _ hnodup, Nat.add_assoc, ← List.sum_map_add, ← List.sum_map_add]
    exact List.sum_le_sum fun v _ => Nat.add_le_add_left (returnSteps_add_le hg v) _
  refine (launch_ends hl hg hcl fun h => ?_).bind ?_
  · have := henough h
    omega
  rintro s₁ ⟨hs₁, hgrows, hused, hseeds, hreturns⟩
  have hcap : s₁.budget.cap = budget.cap := hgrows.cap
  have hdue := due_le g l members s₁
  rw [← hcap]
  refine (rounds_ends hl hg hcl hin hs₁ (hgrows.fits hfits) (.inl (Nat.le_refl _)) fun h => ?_).bind
    ?_
  · have := henough h
    omega
  rintro s₂ ⟨hs₂, hgrows₂, hsum, hdone⟩
  have hcap₂ := hgrows₂.cap
  have hfits₂ := hgrows₂.fits (hgrows.fits hfits)
  refine Ends.of_ok ⟨s₂, rfl, hs₂.reachable, ⟨?_, ?_, ?_⟩, hcap₂, by omega, by omega⟩
  · exact fun v hv a ha => hgrows₂.holds v a (hseeds v hv a ha)
  · exact fun v hv a ha e he => (hreturns v hv a ha e he).mono hgrows₂
  · intro v a ha
    refine (hs₂.gone v a ha).resolve_left fun h => ?_
    rw [hdone] at h
    exact absurd h List.not_mem_nil

end Functions

end Enclave.Spread
