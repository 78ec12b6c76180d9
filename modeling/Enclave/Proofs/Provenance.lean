import Enclave.Proofs.Settling

/-!
# Enclave.Proofs.Provenance

Where the levels that are known of a node come from. `Provenance` is built up from the rules of a
spread alone: a seed, a return level on its first edge, an edge more, or a join that two levels of a
node raised there. Unlike `Rules`, it tells a join that is new to the node from one that is not.

* `Reachable.provenance`: every recorded origin has a provenance.
* `Provenance.introduced`: the node that an origin names has the level by its label, or because it
  was raised there.
-/

namespace Enclave

attribute [local instance] lexOrd

namespace Spread

open NodeFacts Enclave.Flow

variable {g : Graph} {l : Lattice} {members : List NodeId} {s s' : Flow} {v : NodeId} {a : Level}
  {o : Origin}

/-- The level is the join of two others that the node has. -/
def Raised (l : Lattice) (H : NodeId → Level → Prop) (v : NodeId) (a : Level) : Prop :=
  ∃ t b, t ≠ a ∧ b ≠ a ∧ H v t ∧ H v b ∧ l.join? t b = some a

theorem Raised.mono {H H' : NodeId → Level → Prop} (hH : ∀ v a, H v a → H' v a)
    (h : Raised l H v a) : Raised l H' v a := by
  obtain ⟨t, b, ht, hb, hvt, hvb, hjoin⟩ := h
  exact ⟨t, b, ht, hb, hH v t hvt, hH v b hvb, hjoin⟩

/-- How a level comes to a node from an origin. -/
inductive Provenance (g : Graph) (l : Lattice) (s : Flow) : NodeId → Level → Origin → Prop
  | seed {v : NodeId} {a : Level} : g.nodes[v]?.bind (·.seed?) = some a →
      Provenance g l s v a (.start v)
  | sent {u : NodeId} {a : Level} {e : Edge × EdgeId} :
      g.nodes[u]?.bind (·.singleReturn?) = some a → e ∈ returnEdges g u → admits g e.1 a = false →
      Provenance g l s e.1.target a ⟨u, 1⟩
  | onward {u : NodeId} {a : Level} {o : Origin} {e : Edge × EdgeId} : Provenance g l s u a o →
      e ∈ onwardEdges g u → admits g e.1 a = false →
      Provenance g l s e.1.target a ⟨o.seed, o.distance + 1⟩
  | raised {v : NodeId} {a : Level} : s.Knows g v a (.start v) → Raised l s.Holds v a →
      Provenance g l s v a (.start v)

theorem Provenance.mono {d : Nat} (hs : s.Settles g d s') (h : Provenance g l s v a o) :
    Provenance g l s' v a o := by
  have hholds : ∀ v a, s.Holds v a → s'.Holds v a := by
    intro v a ha
    obtain ⟨o, ho⟩ := ha
    exact (hs.nearer v a o ho).holds
  induction h with
  | seed hseed => exact .seed hseed
  | sent hret he hadm => exact .sent hret he hadm
  | onward _ he hadm ih => exact .onward ih he hadm
  | raised hknows hraised => exact .raised (hknows.mono hs) (hraised.mono hholds)

theorem Cause.provenance
    (hs : ∀ v a o, (s.factsOf v).levels.get? a = some o → Provenance g l s v a o)
    (h : Cause g members s v a o) : Provenance g l s v a o := by
  cases h with
  | seed _ hseed => exact .seed hseed
  | sent _ hret he hadm _ => exact .sent hret he hadm
  | onward ho he hadm _ => exact .onward (hs _ _ _ ho) he hadm

theorem Reachable.provenance (hl : l.Lawful) (hg : g.Over l) (h : Reachable g l members s) :
    ∀ v a o, (s.factsOf v).levels.get? a = some o → Provenance g l s v a o := by
  induction h with
  | start hf _ =>
    intro v a o ho
    rw [factsOf_empty hf] at ho
    cases ho
  | book _ hf _ _ ih =>
    intro v a o ho
    rw [factsOf_of_facts_eq hf] at ho
    exact (ih v a o ho).mono (.of_facts_eq g 0 hf)
  | @arrive s s' v a o via hs hcause harr ih =>
    have hsettles : s.Settles g o.distance s' := harr.settles (Nat.le_refl _)
    intro w c o' ho'
    by_cases hw : w = v
    · subst hw
      have hhere := ho'
      rw [harr.here] at hhere
      rcases origin_receive hhere with hold | ⟨rfl, rfl, -⟩ | ⟨-, hr, rfl⟩
      · exact (ih w c o' hold).mono hsettles
      · exact (hcause.provenance ih).mono hsettles
      · -- the node was at a level that it still has, and the join is neither that nor the new one
        obtain ⟨t, -, ht, hjoin⟩ := (hs.steady hl hg w).of_raised hr
        obtain ⟨-, hca, hnew⟩ := raised?_eq_some.1 hr
        have htc : t ≠ c := fun h => hnew (h ▸ ht)
        exact .raised ⟨_, ho', .refl g _⟩
          ⟨t, a, htc, hca.symm, harr.holds_of_holds ht, harr.holds, hjoin⟩
    · rw [harr.factsOf_of_ne hw] at ho'
      exact (ih w c o' ho').mono hsettles

/-- The node that an origin names introduced the level: by its label, or by raising it. -/
theorem Provenance.introduced (h : Provenance g l s v a o) :
    g.nodes[o.seed]?.bind (·.seed?) = some a ∨
      (1 ≤ o.distance ∧ g.nodes[o.seed]?.bind (·.singleReturn?) = some a) ∨
      (s.Knows g o.seed a (.start o.seed) ∧ Raised l s.Holds o.seed a) := by
  induction h with
  | seed hseed => exact .inl hseed
  | sent hret _ _ => exact .inr (.inl ⟨Nat.le_refl 1, hret⟩)
  | onward _ _ _ ih =>
    rcases ih with hseed | ⟨hpos, hret⟩ | hraised
    · exact .inl hseed
    · exact .inr (.inl ⟨Nat.le_succ_of_le hpos, hret⟩)
    · exact .inr (.inr hraised)
  | raised hknows hraised => exact .inr (.inr ⟨hknows, hraised⟩)

end Spread

end Enclave
