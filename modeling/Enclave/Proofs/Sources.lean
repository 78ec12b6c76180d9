import Enclave.Proofs.Evidence
import Enclave.Proofs.Provenance

/-!
# Enclave.Proofs.Sources

Which nodes the witnesses of a solution name as sources. Where two levels meet at a node without a
seed, each of them came from another node, unless the node introduced it (`Side.Home`): as the join
of two levels that reached it, or as its own return level, which came back to it.

* `seeds_of_unseeded_meeting`: the sides of a witness at a node without a seed start elsewhere, but
  for these two cases.
* `unseeded_meeting_names_itself`: both cases occur.
-/

namespace Enclave

attribute [local instance] lexOrd

/--
The side starts at the node itself: at a join that was raised there, or at its one return level,
which travelled back to it.
-/
def Side.Home (g : Graph) (l : Lattice) (s : Solution) (v : NodeId) (side : Side) : Prop :=
  (side.distance = 0 ∧ Spread.Raised l s.Holds v side.level) ∨
    (1 ≤ side.distance ∧ g.nodes[v]?.bind (·.singleReturn?) = some side.level ∧
      g.Travelled s.carried side.level v side.distance v)

/-- The side starts at another node than the one where the levels meet, or belongs there. -/
def Side.Sourced (g : Graph) (l : Lattice) (s : Solution) (v : NodeId) (side : Side) : Prop :=
  side.seed ≠ v ∨ side.Home g l s v

namespace Side

variable {g : Graph} {l : Lattice} {s t : Solution} {v : NodeId} {side : Side}

theorem Home.mono (hst : s.Upheld t) (h : side.Home g l s v) : side.Home g l t v := by
  rcases h with ⟨hzero, hraised⟩ | ⟨hpos, hret, htravelled⟩
  · exact .inl ⟨hzero, hraised.mono hst.holds⟩
  · exact .inr ⟨hpos, hret, htravelled.mono hst.carried⟩

theorem Sourced.mono (hst : s.Upheld t) (h : side.Sourced g l s v) : side.Sourced g l t v :=
  h.imp id fun h => h.mono hst

end Side

/-- At a node without a seed, both sides of a witness between levels are sourced. -/
def Witness.Sourced (g : Graph) (l : Lattice) (s : Solution) (w : Witness) : Prop :=
  w.kind ≠ .taint → g.nodes[w.meeting]?.bind (·.seed?) = none →
    w.incoming.Sourced g l s w.meeting ∧ w.existing.Sourced g l s w.meeting

theorem Witness.Sourced.mono {g : Graph} {l : Lattice} {s t : Solution} {w : Witness}
    (hst : s.Upheld t) (h : w.Sourced g l s) : w.Sourced g l t := by
  intro hkind hseed
  obtain ⟨hincoming, hexisting⟩ := h hkind hseed
  exact ⟨hincoming.mono hst, hexisting.mono hst⟩

namespace Spread

open NodeFacts Enclave.Flow

variable {g : Graph} {l : Lattice} {members : List NodeId} {s s' : Flow} {v : NodeId}
  {a b c : Level} {o o' : Origin} {f : NodeFacts} {kind : ConflictKind} {via : Option Kinds}
  {w : Witness}

/--
A provenance gives a sourced side, if a level that was raised at the node itself is told by its
distance.
-/
theorem Provenance.sourced (h : Provenance g l s v a o)
    (hseed : g.nodes[v]?.bind (·.seed?) = none)
    (hraised : s.Knows g v a (.start v) → o.seed = v → o.distance = 0)
    (htravelled : g.Travelled s.carried a o.seed o.distance v) :
    (Side.ofFact a o).Sourced g l s.solution v := by
  by_cases hv : o.seed = v
  · refine .inr ?_
    rcases h.introduced with hown | ⟨hpos, hret⟩ | ⟨hknows, hjoin⟩
    · rw [hv, hseed] at hown
      cases hown
    · rw [hv] at hret htravelled
      exact .inr ⟨hpos, hret, htravelled⟩
    · rw [hv] at hknows hjoin
      exact .inl ⟨hraised hknows hv, hjoin⟩
  · exact .inl hv

section Runs

variable (hl : l.Lawful) (hg : g.Over l)

include hl hg

theorem Reachable.sourced_of_get? (hs : Reachable g l members s)
    (hseed : g.nodes[v]?.bind (·.seed?) = none) (ho : (s.factsOf v).levels.get? a = some o) :
    (Side.ofFact a o).Sourced g l s.solution v := by
  refine (hs.provenance hl hg v a o ho).sourced hseed (fun hknows _ => ?_) (hs.travelled hl hg ho)
  obtain ⟨known, hknown, hnear⟩ := hknows
  cases Option.some.inj (ho.symm.trans hknown)
  exact Nat.le_zero.1 hnear.distance_le

theorem Cause.sourced (hs : Reachable g l members s) (hcause : Cause g members s v a o)
    (hseed : g.nodes[v]?.bind (·.seed?) = none) (hnew : ¬ s.Holds v a) :
    (Side.ofFact a o).Sourced g l s.solution v := by
  refine (hcause.provenance (hs.provenance hl hg)).sourced hseed (fun hknows _ => ?_)
    (hcause.travelled hl hg hs)
  exact absurd hknows.holds hnew

theorem sourced_of_mem_testimony (hs : Reachable g l members s)
    (hcause : Cause g members s v a o) (harr : Arrival g l v a o (kindOf via) s s')
    (hw : w ∈ testimony g l (s.factsOf v) v a o (kindOf via)) : w.Sourced g l s'.solution := by
  have hupheld := upheld_of_arrival hs.keyed harr
  obtain ⟨hnew, hw⟩ := mem_testimony.1 hw
  intro hkind hseed
  rcases hw with hw | ⟨b, hr, hw⟩
  · rcases mem_evidence.1 hw with ⟨p, hp, rfl⟩ | ⟨b, -, rfl⟩
    · have hexisting := hs.sourced_of_get? hl hg hseed (mem_of_mem_opponents hp)
      exact ⟨(hcause.sourced hl hg hs hseed hnew).mono hupheld, hexisting.mono hupheld⟩
    · exact absurd rfl hkind
  · rcases mem_evidence.1 hw with ⟨p, hp, rfl⟩ | ⟨c, -, rfl⟩
    · refine ⟨.inr (.inl ⟨rfl, ?_⟩), ?_⟩
      · -- the join that arrives is raised from the level of the node and the one that came
        obtain ⟨t, -, ht, hjoin⟩ := (hs.steady hl hg v).of_raised hr
        obtain ⟨-, hba, hb⟩ := raised?_eq_some.1 hr
        have htb : t ≠ b := fun h => hb (h ▸ ht)
        exact ⟨t, a, htb, hba.symm, harr.holds_of_holds ht, harr.holds, hjoin⟩
      · -- it is set against what the node had, or against the level that came
        have hpresent := mem_of_mem_opponents hp
        rw [get?_add] at hpresent
        by_cases hpa : p.1 = a
        · rw [if_pos hpa] at hpresent
          have hside : Side.ofFact p.1 p.2 = Side.ofFact a o := by
            rw [hpa, Option.some.inj hpresent]
          exact hside ▸ (hcause.sourced hl hg hs hseed hnew).mono hupheld
        · rw [if_neg hpa] at hpresent
          exact (hs.sourced_of_get? hl hg hseed hpresent).mono hupheld
    · exact absurd rfl hkind

theorem Reachable.sourced (h : Reachable g l members s) :
    ∀ w ∈ s.witnesses.toList, w.Sourced g l s.solution :=
  h.forall_witnesses (fun hst hw => hw.mono hst)
    fun hs hcause harr _ => sourced_of_mem_testimony hl hg hs hcause harr

end Runs

end Spread

namespace Graph

variable {g : Graph} {l : Lattice} {settings : SolverSettings} {s : Solution}

/--
Where the levels of a witness meet at a node without a seed, each of its sides starts at another
node, or at a level that the node introduced itself, whatever the lattice, the graph and the cap.
-/
theorem seeds_of_unseeded_meeting {names : List String} {spec : LatticeSpec}
    (hl : Lattice.build names spec = .ok l) (hcl : g.Closed) (hg : g.Over l)
    (hs : g.solve l settings = .ok s) :
    ∀ w ∈ s.witnesses, w.kind ≠ .taint → g.nodes[w.meeting]?.bind (·.seed?) = none →
      ∀ side ∈ [w.incoming, w.existing],
        side.seed ≠ w.meeting ∨ side.Home g l s w.meeting := by
  intro w hw hkind hseed
  have hlawful := Lattice.build_lawful hl
  obtain ⟨p, f, hf, hmem⟩ := (composed_of_solve hlawful hg hcl hs).witnesses w hw
  have hsourced := (hf.reachable.sourced hlawful hg w hmem).mono hf.upheld
  obtain ⟨hincoming, hexisting⟩ := hsourced hkind hseed
  intro side hside
  simp only [List.mem_cons, List.not_mem_nil, or_false] at hside
  rcases hside with rfl | rfl
  · exact hincoming
  · exact hexisting

/-- Two levels are joined where a third arrives that cannot be with their join. -/
def mixing : Program where
  labels := {
    functions := .ofList [
      ("sensor", { level := some "red" }),
      ("store", { level := some "blue" }),
      ("lamp", { level := some "green" })] }
  ir := {
    defUse := [⟨"sensor", "mixer", none⟩, ⟨"store", "mixer", none⟩, ⟨"lamp", "relay", none⟩,
      ⟨"relay", "mixer", none⟩] }

def mixingLevels : LatticeSpec where
  levels := ["violet", "white"]
  order := [("red", "violet"), ("blue", "violet"), ("violet", "white"), ("green", "white")]
  exclusive := [("violet", "green")]

theorem seeds_of_unseeded_meeting_mixing :
    ∃ (names : List String) (l : Lattice) (g : Graph) (s : Solution),
    Lattice.build names mixingLevels = .ok l ∧ g.Closed ∧ g.Over l ∧ g.solve l {} = .ok s ∧
    (∃ w ∈ s.witnesses, w.kind ≠ .taint ∧ g.nodes[w.meeting]?.bind (·.seed?) = none ∧
      w.incoming.seed ≠ w.meeting ∧ w.existing.Home g l s w.meeting) ∧
    ∀ w ∈ s.witnesses, w.kind ≠ .taint → g.nodes[w.meeting]?.bind (·.seed?) = none →
      ∀ side ∈ [w.incoming, w.existing],
        side.seed ≠ w.meeting ∨ side.Home g l s w.meeting := by
  have hrun : (Analysis.prepare { lattice := mixingLevels } mixing).toOption.any (fun r =>
      r.toOption.any fun p => (p.graph.solve p.lattice {}).toOption.any fun s => decide (
        ∃ w ∈ s.witnesses, w.kind ≠ .taint ∧
          p.graph.nodes[w.meeting]?.bind (·.seed?) = none ∧ w.incoming.seed ≠ w.meeting ∧
          w.existing.seed = w.meeting)) = true := by
    decide +kernel
  obtain ⟨p, s, hp, hs, w, hw, hkind, hseed, hincoming, hexisting⟩ :=
    Analysis.exists_solution_of_any hrun
  have hvalid := Analysis.valid_of_prepare hp
  have hlattice := (Analysis.prepare_eq_ok hp).1
  have hsourced := seeds_of_unseeded_meeting hlattice hvalid.closed hvalid.labels hs
  have hside : w.existing ∈ [w.incoming, w.existing] := by simp
  exact ⟨_, p.lattice, p.graph, s, hlattice, hvalid.closed, hvalid.labels, hs,
    ⟨w, hw, hkind, hseed, hincoming,
      (hsourced w hw hkind hseed w.existing hside).resolve_left fun h => h hexisting⟩, hsourced⟩

/-- A function whose return level comes back to it, where it meets what the function is sent. -/
def looping : Program where
  labels := {
    functions := .ofList [
      ("filter", { taint := some {
        returns := some ["purple"], arguments := some ["green"],
        code := some ["orange", "purple"] } }),
      ("sensor", { level := some "orange" })] }
  ir := {
    defUse := [⟨"filter", "buffer", none⟩, ⟨"buffer", "filter", none⟩,
      ⟨"sensor", "filter", none⟩] }

/--
A node without a seed is named as a source where levels meet at it: for a join that was raised
there, and for its own return level.
-/
theorem unseeded_meeting_names_itself :
    (∃ p s w, Analysis.prepare { lattice := mixingLevels } mixing = .ok (.ok p) ∧
      p.graph.solve p.lattice {} = .ok s ∧ w ∈ s.witnesses ∧ w.kind ≠ .taint ∧
      p.graph.nodes[w.meeting]?.bind (·.seed?) = none ∧ w.existing.seed = w.meeting) ∧
    ∃ p s w, Analysis.prepare {} looping = .ok (.ok p) ∧
      p.graph.solve p.lattice {} = .ok s ∧ w ∈ s.witnesses ∧ w.kind ≠ .taint ∧
      p.graph.nodes[w.meeting]?.bind (·.seed?) = none ∧ w.incoming.seed = w.meeting := by
  have hjoined : (Analysis.prepare { lattice := mixingLevels } mixing).toOption.any (fun r =>
      r.toOption.any fun p => (p.graph.solve p.lattice {}).toOption.any fun s => decide (
        ∃ w ∈ s.witnesses, w.kind ≠ .taint ∧
          p.graph.nodes[w.meeting]?.bind (·.seed?) = none ∧
          w.existing.seed = w.meeting)) = true := by
    decide +kernel
  have hreturned : (Analysis.prepare {} looping).toOption.any (fun r =>
      r.toOption.any fun p => (p.graph.solve p.lattice {}).toOption.any fun s => decide (
        ∃ w ∈ s.witnesses, w.kind ≠ .taint ∧
          p.graph.nodes[w.meeting]?.bind (·.seed?) = none ∧
          w.incoming.seed = w.meeting)) = true := by
    decide +kernel
  constructor
  · obtain ⟨p, s, hp, hs, w, hw⟩ := Analysis.exists_solution_of_any hjoined
    exact ⟨p, s, w, hp, hs, hw⟩
  · obtain ⟨p, s, hp, hs, w, hw⟩ := Analysis.exists_solution_of_any hreturned
    exact ⟨p, s, w, hp, hs, hw⟩

end Graph

end Enclave
