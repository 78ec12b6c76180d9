import Enclave.Proofs.Consistency
import Enclave.Proofs.Preparing
import Enclave.Proofs.Witnesses

/-!
# Enclave.Proofs.Evidence

The witnesses of a solution, read against its facts. A witness is evidence of something that is so
in the solution (`Witness.Genuine`), and everything that rules a solution out has a witness between
the places it came from (`Solution.Complete`). Both are kept by every arrival of a level, because
facts, carried levels and pairs of seeds are never taken back (`Solution.Upheld`), and both pass
from the components to the whole graph for the same reason: a solution is composed of runs over the
components that it upholds (`Spread.Composed`).

* `witnesses_genuine`: every witness of a solution is genuine.
* `witnesses_complete`: every clash of levels, every level outside a code taint and every conflicted
  node of a solution shows among its witnesses.
-/

namespace Enclave

attribute [local instance] lexOrd

/-- All that is known, carried and witnessed in a solution is so in another, pair for pair. -/
structure Solution.Upheld (s t : Solution) : Prop where
  holds : ∀ v a, s.Holds v a → t.Holds v a
  conflicted : ∀ v, s.state v = .conflicted → t.state v = .conflicted
  carried : ∀ p ∈ s.carried.toList, p ∈ t.carried.toList
  pairs : ∀ w ∈ s.witnesses, ∃ w' ∈ t.witnesses, w'.pair = w.pair

/-- What a witness says is so in the solution, and both of its sides were travelled. -/
structure Witness.Genuine (g : Graph) (l : Lattice) (s : Solution) (w : Witness) : Prop where
  incoming : s.Holds w.meeting w.incoming.level
  clash : w.kind ≠ .taint → s.Holds w.meeting w.existing.level ∧
    w.existing.level ≠ w.incoming.level ∧
      (l.compatible w.incoming.level w.existing.level = false ∨ s.state w.meeting = .conflicted)
  forbidden : w.kind = .taint → w.existing.seed = w.meeting ∧ w.existing.distance = 0 ∧
    ∃ code, g.nodes[w.meeting]?.bind (·.code?) = some code ∧ w.incoming.level ∉ code.toList
  travelled : ∀ side ∈ [w.incoming, w.existing],
    g.Travelled s.carried side.level side.seed side.distance w.meeting

namespace Solution

variable {g : Graph} {l : Lattice} {s t : Solution} {v x y : NodeId} {a b : Level} {w : Witness}

def Shows (s : Solution) (x y : NodeId) : Prop := ∃ w ∈ s.witnesses, w.Between x y

/-- Two levels came to the node from seeds that have a witness between them. -/
def Met (g : Graph) (s : Solution) (v : NodeId) (a b : Level) : Prop :=
  ∃ x y m n, g.Travelled s.carried a x m v ∧ g.Travelled s.carried b y n v ∧ s.Shows x y

/-- The level came to the node from a seed that has a witness with the node. -/
def Denied (g : Graph) (s : Solution) (v : NodeId) (a : Level) : Prop :=
  ∃ x n, g.Travelled s.carried a x n v ∧ s.Shows x v

/-- Whatever rules the solution out has a witness. -/
structure Complete (g : Graph) (l : Lattice) (s : Solution) : Prop where
  met : ∀ v a b, s.Holds v a → s.Holds v b → a ≠ b → l.compatible a b = false → s.Met g v a b
  denied : ∀ v a code, g.nodes[v]?.bind (·.code?) = some code → s.Holds v a → a ∉ code.toList →
    s.Denied g v a
  conflicted : ∀ v, s.state v = .conflicted → s.witnesses ≠ []

theorem Shows.symm (h : s.Shows x y) : s.Shows y x := by
  obtain ⟨w, hw, hxy⟩ := h
  exact ⟨w, hw, hxy.symm⟩

theorem Shows.mono (hst : s.Upheld t) (h : s.Shows x y) : t.Shows x y := by
  obtain ⟨w, hw, hxy⟩ := h
  obtain ⟨w', hw', hpair⟩ := hst.pairs w hw
  exact ⟨w', hw', hxy.of_pair_eq hpair⟩

theorem Met.symm (h : s.Met g v a b) : s.Met g v b a := by
  obtain ⟨x, y, m, n, ha, hb, hshow⟩ := h
  exact ⟨y, x, n, m, hb, ha, hshow.symm⟩

theorem Met.mono (hst : s.Upheld t) (h : s.Met g v a b) : t.Met g v a b := by
  obtain ⟨x, y, m, n, ha, hb, hshow⟩ := h
  exact ⟨x, y, m, n, ha.mono hst.carried, hb.mono hst.carried, hshow.mono hst⟩

theorem Denied.mono (hst : s.Upheld t) (h : s.Denied g v a) : t.Denied g v a := by
  obtain ⟨x, n, ha, hshow⟩ := h
  exact ⟨x, n, ha.mono hst.carried, hshow.mono hst⟩

end Solution

theorem Witness.Genuine.mono {g : Graph} {l : Lattice} {s t : Solution} {w : Witness}
    (hst : s.Upheld t) (h : w.Genuine g l s) : w.Genuine g l t where
  incoming := hst.holds _ _ h.incoming
  clash hkind := by
    obtain ⟨hheld, hne, hodds⟩ := h.clash hkind
    exact ⟨hst.holds _ _ hheld, hne, hodds.imp id (hst.conflicted _)⟩
  forbidden := h.forbidden
  travelled side hside := (h.travelled side hside).mono hst.carried

namespace Spread

open NodeFacts Enclave.Flow Solution

variable {g : Graph} {l : Lattice} {members : List NodeId} {s s' : Flow} {u v : NodeId}
  {a b c d : Level} {o o' : Origin} {f : NodeFacts} {kind : ConflictKind} {via : Option Kinds}
  {w : Witness}

theorem upheld_of_arrival (hs : s.witnesses.Keyed) (h : Arrival g l v a o kind s s') :
    s.solution.Upheld s'.solution where
  holds u b := h.holds_of_holds
  conflicted u hu := by
    rw [state_eq] at hu ⊢
    change (s.factsOf u).state = .conflicted at hu
    change (s'.factsOf u).state = .conflicted
    by_cases huv : u = v
    · subst huv
      rw [h.here]
      exact conflicted_receive_of_conflicted hu
    · rwa [h.factsOf_of_ne huv]
  carried p hp := by
    change p ∈ s'.carried.toList
    rwa [h.carried]
  pairs w hw := WitnessSet.recordAll_keeps hs h.witnesses (.inr hw)

theorem upheld_of_book (hf : s'.facts = s.facts) (hw : s'.witnesses = s.witnesses)
    (hc : ∀ p ∈ s.carried.toList, p ∈ s'.carried.toList) : s.solution.Upheld s'.solution where
  holds u b h := by
    rw [Solution.Holds, Solution.factsOf] at h ⊢
    rwa [Flow.solution, hf]
  conflicted u h := by
    rw [Solution.state] at h ⊢
    rwa [Flow.solution, hf]
  carried := hc
  pairs w h := ⟨w, by rwa [Flow.solution, hw], rfl⟩

/--
The evidence that the arrival of a new level gives is genuine wherever the level and what was known
before are known, and the node is conflicted if the level could not join it.
-/
theorem genuine_of_mem_evidence {t : Solution} (hkind : kind ≠ .taint) (hnew : ¬ f.Holds a)
    (hheld : ∀ c, f.Holds c → t.Holds v c) (ha : t.Holds v a)
    (hjoined : f.joined? l a = none → t.state v = .conflicted)
    (ho : g.Travelled t.carried a o.seed o.distance v)
    (hf : ∀ c o', f.levels.get? c = some o' → g.Travelled t.carried c o'.seed o'.distance v)
    (hw : w ∈ evidence g l f v a o kind) : w.Genuine g l t := by
  rcases mem_evidence.1 hw with ⟨p, hp, rfl⟩ | ⟨b, hb, rfl⟩
  · have hpresent := mem_of_mem_opponents hp
    have hne : p.1 ≠ a := fun h => hnew (h ▸ ⟨p.2, hpresent⟩)
    refine ⟨ha, fun _ => ⟨hheld p.1 ⟨p.2, hpresent⟩, hne, ?_⟩, fun h => absurd h hkind, ?_⟩
    · exact (odds_of_mem_opponents hp).imp id hjoined
    · intro side hside
      simp only [List.mem_cons, List.not_mem_nil, or_false] at hside
      rcases hside with rfl | rfl
      · exact ho
      · exact hf p.1 p.2 hpresent
  · refine ⟨ha, fun h => absurd rfl h, fun _ => ⟨rfl, rfl, code_of_allowedInstead hb⟩, ?_⟩
    intro side hside
    simp only [List.mem_cons, List.not_mem_nil, or_false] at hside
    rcases hside with rfl | rfl
    · exact ho
    · exact .stay

theorem shows_of_mem_testimony (hs : Reachable g l members s)
    (harr : Arrival g l v a o (kindOf via) s s')
    (hw : w ∈ testimony g l (s.factsOf v) v a o (kindOf via)) :
    s'.solution.Shows w.incoming.seed w.existing.seed := by
  obtain ⟨w', hw', hpair⟩ := WitnessSet.recordAll_keeps hs.keyed harr.witnesses (.inl hw)
  have hself : w.Between w.incoming.seed w.existing.seed := .inl ⟨rfl, rfl⟩
  exact ⟨w', hw', hself.of_pair_eq hpair⟩

/-- What is so of the evidence that each arrival gives, and stays so, is so of every witness. -/
theorem Reachable.forall_witnesses {P : Solution → Witness → Prop}
    (hmono : ∀ {s t w}, Solution.Upheld s t → P s w → P t w)
    (htestimony : ∀ {s s' v a o via}, Reachable g l members s → Cause g members s v a o →
      Arrival g l v a o (kindOf via) s s' →
      ∀ w ∈ testimony g l (s.factsOf v) v a o (kindOf via), P s'.solution w)
    (h : Reachable g l members s) : ∀ w ∈ s.witnesses.toList, P s.solution w := by
  induction h with
  | start _ hw =>
    intro w hmem
    rw [hw] at hmem
    cases hmem
  | book _ hf hw hc ih =>
    intro w hmem
    rw [hw] at hmem
    exact hmono (upheld_of_book hf hw hc) (ih w hmem)
  | @arrive s s' v a o via hs hcause harr ih =>
    intro w hmem
    rcases WitnessSet.mem_of_mem_recordAll harr.witnesses hmem with hw | hw
    · exact htestimony hs hcause harr w hw
    · exact hmono (upheld_of_arrival hs.keyed harr) (ih w hw)

section Runs

variable (hl : l.Lawful) (hg : g.Over l)

include hl hg

theorem travelled_add (hs : Reachable g l members s) (hcause : Cause g members s v a o)
    (hc : ((s.factsOf v).add l a o).levels.get? c = some o') :
    g.Travelled s.carried c o'.seed o'.distance v := by
  rw [get?_add] at hc
  by_cases hca : c = a
  · subst hca
    rw [if_pos rfl] at hc
    cases hc
    exact hcause.travelled hl hg hs
  · rw [if_neg hca] at hc
    exact hs.travelled hl hg hc

theorem genuine_of_mem_testimony (hs : Reachable g l members s)
    (hcause : Cause g members s v a o) (harr : Arrival g l v a o (kindOf via) s s')
    (hw : w ∈ testimony g l (s.factsOf v) v a o (kindOf via)) : w.Genuine g l s'.solution := by
  obtain ⟨hnew, hw⟩ := mem_testimony.1 hw
  have hcar : s'.solution.carried = s.carried := harr.carried
  have hstate : s'.solution.state v = ((s.factsOf v).receive g l v a o).state := by
    rw [state_eq, ← harr.here]
    rfl
  rcases hw with hw | ⟨b, hr, hw⟩
  · refine genuine_of_mem_evidence kindOf_ne_taint hnew (fun c => harr.holds_of_holds) harr.holds
      (fun h => ?_) ?_ (fun c o' hc => ?_) hw
    · rw [hstate, conflicted_receive hnew h]
    · rw [hcar]
      exact hcause.travelled hl hg hs
    · rw [hcar]
      exact hs.travelled hl hg hc
  · -- the join is set against the node with the level that raised it
    obtain ⟨-, hba, hb⟩ := raised?_eq_some.1 hr
    have hhere : s'.factsOf v = ((s.factsOf v).add l a o).add l b (.start v) := by
      rw [harr.here, receive_raised hnew hr]
    have hholds : ∀ c, c = b ∨ ((s.factsOf v).add l a o).Holds c → s'.Holds v c := by
      intro c hc
      rw [Flow.Holds, hhere, holds_add]
      exact hc
    refine genuine_of_mem_evidence kindOf_ne_taint (fun h => (holds_add.1 h).elim hba hb)
      (fun c hc => hholds c (.inr hc)) (hholds b (.inl rfl)) (fun h => ?_) .stay
      (fun c o' hc => ?_) hw
    · rw [hstate, receive_raised hnew hr]
      simp [state_add, h]
    · rw [hcar]
      exact travelled_add hl hg hs hcause hc

theorem Reachable.genuine (h : Reachable g l members s) :
    ∀ w ∈ s.witnesses.toList, w.Genuine g l s.solution :=
  h.forall_witnesses (fun hst hw => hw.mono hst)
    fun hs hcause harr _ => genuine_of_mem_testimony hl hg hs hcause harr

/--
A level that an arrival brings to a node, with the evidence it gave: it was set against every level
that had come before it, and against the code taint of the node.
-/
theorem shown_of_new (hs : Reachable g l members s) (hcause : Cause g members s v a o)
    (harr : Arrival g l v a o (kindOf via) s s') (hold : ¬ s.Holds v c) (hnow : s'.Holds v c) :
    ∃ x n, g.Travelled s'.carried c x n v ∧
      (∀ d, d ≠ c → s.Holds v d ∨ d = a → l.compatible c d = false →
        ∃ y m, g.Travelled s'.carried d y m v ∧ s'.solution.Shows x y) ∧
      ∀ code, g.nodes[v]?.bind (·.code?) = some code → c ∉ code.toList →
        s'.solution.Shows x v := by
  rw [Flow.Holds, harr.here] at hnow
  obtain ⟨f₁, o₁, hsub, hcase⟩ := evidence_of_new (kindOf via) hold hnow
  rw [harr.carried]
  have hclash : ∀ d o', f₁.levels.get? d = some o' → l.compatible c d = false →
      s'.solution.Shows o₁.seed o'.seed := by
    intro d o' hd hodds
    have hmem := mem_opponents_of_clash (g := g) hd hodds
    exact shows_of_mem_testimony hs harr (hsub _ (mem_evidence.2 (.inl ⟨_, hmem, rfl⟩)))
  refine ⟨o₁.seed, o₁.distance, ?_, ?_, ?_⟩
  · rcases hcase with ⟨-, rfl, rfl⟩ | ⟨-, -, rfl⟩
    · exact hcause.travelled hl hg hs
    · exact .stay
  · intro d hne hd hodds
    rcases hcase with ⟨rfl, rfl, -⟩ | ⟨rfl, -, -⟩
    · obtain ⟨o', ho'⟩ := hd.resolve_right hne
      exact ⟨o'.seed, o'.distance, hs.travelled hl hg ho', hclash d o' ho' hodds⟩
    · obtain ⟨o', ho'⟩ : ((s.factsOf v).add l a o).Holds d := holds_add.2 hd.symm
      exact ⟨o'.seed, o'.distance, travelled_add hl hg hs hcause ho', hclash d o' ho' hodds⟩
  · intro code hcode hout
    obtain ⟨b, hb⟩ := exists_allowedInstead hg.listed hcode hout
    exact shows_of_mem_testimony hs harr (hsub _ (mem_evidence.2 (.inr ⟨b, hb, rfl⟩)))

theorem met_of_new (hs : Reachable g l members s) (hcause : Cause g members s v a o)
    (harr : Arrival g l v a o (kindOf via) s s') (hold : ¬ s.Holds v c) (hnow : s'.Holds v c)
    (hne : d ≠ c) (hd : s.Holds v d ∨ d = a) (hodds : l.compatible c d = false) :
    s'.solution.Met g v c d := by
  obtain ⟨x, n, hc, hclash, -⟩ := shown_of_new hl hg hs hcause harr hold hnow
  obtain ⟨y, m, hd, hshow⟩ := hclash d hne hd hodds
  exact ⟨x, y, n, m, hc, hd, hshow⟩

theorem met_of_arrival (hs : Reachable g l members s) (hcause : Cause g members s v a o)
    (harr : Arrival g l v a o (kindOf via) s s') (hnot : ¬ (s.Holds v c ∧ s.Holds v d))
    (hc : s'.Holds v c) (hd : s'.Holds v d) (hne : c ≠ d) (hodds : l.compatible c d = false) :
    s'.solution.Met g v c d := by
  have hodds' : l.compatible d c = false := by rw [Lattice.compatible_comm hl, hodds]
  by_cases hcold : s.Holds v c
  · have hdnew : ¬ s.Holds v d := fun h => hnot ⟨hcold, h⟩
    exact (met_of_new hl hg hs hcause harr hdnew hd hne (.inl hcold) hodds').symm
  · by_cases hdold : s.Holds v d ∨ d = a
    · exact met_of_new hl hg hs hcause harr hcold hc (Ne.symm hne) hdold hodds
    · -- the second is the join that was raised, so the first is the level that raised it
      have hca : c = a := by
        have hc' := hc
        have hd' := hd
        rw [Flow.Holds, harr.here, holds_receive] at hc' hd'
        rw [not_or] at hdold
        have hraised := (hd'.resolve_left hdold.1).resolve_left hdold.2
        refine (hc'.resolve_left hcold).resolve_right fun h => hne ?_
        exact Option.some.inj (h.2.symm.trans hraised.2)
      rw [not_or] at hdold
      exact (met_of_new hl hg hs hcause harr hdold.1 hd hne (.inr hca) hodds').symm

theorem Reachable.met (h : Reachable g l members s) : ∀ v c d, s.Holds v c → s.Holds v d →
    c ≠ d → l.compatible c d = false → s.solution.Met g v c d := by
  induction h with
  | start hf _ =>
    intro v c d hc
    rw [Flow.Holds, factsOf_empty hf] at hc
    exact absurd hc not_holds_empty
  | book _ hf hw hcar ih =>
    intro v c d hc hd hne hodds
    rw [Flow.Holds, factsOf_of_facts_eq hf] at hc hd
    exact (ih v c d hc hd hne hodds).mono (upheld_of_book hf hw hcar)
  | @arrive s s' v a o via hs hcause harr ih =>
    intro u c d hc hd hne hodds
    by_cases hboth : s.Holds u c ∧ s.Holds u d
    · exact (ih u c d hboth.1 hboth.2 hne hodds).mono (upheld_of_arrival hs.keyed harr)
    · by_cases huv : u = v
      · subst huv
        exact met_of_arrival hl hg hs hcause harr hboth hc hd hne hodds
      · rw [Flow.Holds, harr.factsOf_of_ne huv] at hc hd
        exact absurd ⟨hc, hd⟩ hboth

theorem Reachable.denied (h : Reachable g l members s) : ∀ v c code,
    g.nodes[v]?.bind (·.code?) = some code → s.Holds v c → c ∉ code.toList →
    s.solution.Denied g v c := by
  induction h with
  | start hf _ =>
    intro v c code _ hc
    rw [Flow.Holds, factsOf_empty hf] at hc
    exact absurd hc not_holds_empty
  | book _ hf hw hcar ih =>
    intro v c code hcode hc hout
    rw [Flow.Holds, factsOf_of_facts_eq hf] at hc
    exact (ih v c code hcode hc hout).mono (upheld_of_book hf hw hcar)
  | @arrive s s' v a o via hs hcause harr ih =>
    intro u c code hcode hc hout
    by_cases hold : s.Holds u c
    · exact (ih u c code hcode hold hout).mono (upheld_of_arrival hs.keyed harr)
    · by_cases huv : u = v
      · subst huv
        obtain ⟨x, n, htravelled, -, hdenied⟩ := shown_of_new hl hg hs hcause harr hold hc
        exact ⟨x, n, htravelled, hdenied code hcode hout⟩
      · rw [Flow.Holds, harr.factsOf_of_ne huv] at hc
        exact absurd hc hold

/-- A finished run has evidence for what is so, and for all of it. -/
theorem Reachable.complete (h : Reachable g l members s) : s.solution.Complete g l where
  met := h.met hl hg
  denied := h.denied hl hg
  conflicted v hv := by
    rw [state_eq] at hv
    have hne : s.witnesses.isEmpty = false := (h.evident hl hg).2 ⟨v, .inl hv⟩
    rw [← isEmpty_toList] at hne
    exact fun hnil => by simp [show s.witnesses.toList = [] from hnil] at hne

end Runs

end Spread

namespace Solution

variable {g : Graph} {l : Lattice} {s t : Solution} {v : NodeId} {a : Level}

def Apart (s t : Solution) : Prop := ∀ v, s.facts.get? v = none ∨ t.facts.get? v = none

theorem factsOf_absorb (h : s.Apart t) (v : NodeId) :
    ((s.absorb t).factsOf v = s.factsOf v ∧ t.factsOf v = {}) ∨
      ((s.absorb t).factsOf v = t.factsOf v ∧ s.factsOf v = {}) := by
  rcases h v with hv | hv
  · exact .inr ⟨factsOf_absorb_right hv, by rw [factsOf, hv, Option.getD_none]⟩
  · exact .inl ⟨factsOf_absorb_left hv, by rw [factsOf, hv, Option.getD_none]⟩

theorem upheld_of_part (hfacts : ∀ v, t.factsOf v = s.factsOf v ∨ s.factsOf v = {})
    (hcar : ∀ p ∈ s.carried.toList, p ∈ t.carried.toList)
    (hwitnesses : ∀ w ∈ s.witnesses, w ∈ t.witnesses) : s.Upheld t where
  holds v a ha := by
    rw [Holds] at ha ⊢
    rcases hfacts v with heq | hempty
    · rwa [heq]
    · rw [hempty] at ha
      exact absurd ha NodeFacts.not_holds_empty
  conflicted v hv := by
    rw [state_eq] at hv ⊢
    rcases hfacts v with heq | hempty
    · rwa [heq]
    · rw [hempty] at hv
      cases hv
  carried := hcar
  pairs w hw := ⟨w, hwitnesses w hw, rfl⟩

theorem upheld_absorb_left (h : s.Apart t) : s.Upheld (s.absorb t) :=
  upheld_of_part (fun v => (factsOf_absorb h v).imp (·.1) (·.2))
    (fun _ hp => SortedSet.mem_union.2 (.inl hp)) fun _ => List.mem_append_left _

theorem upheld_absorb_right (h : s.Apart t) : t.Upheld (s.absorb t) :=
  upheld_of_part (fun v => (factsOf_absorb h v).symm.imp (·.1) (·.2))
    (fun _ hp => SortedSet.mem_union.2 (.inr hp)) fun _ => List.mem_append_right _

theorem Upheld.trans {u : Solution} (h : s.Upheld t) (h' : t.Upheld u) : s.Upheld u where
  holds v a ha := h'.holds v a (h.holds v a ha)
  conflicted v hv := h'.conflicted v (h.conflicted v hv)
  carried p hp := h'.carried p (h.carried p hp)
  pairs w hw := by
    obtain ⟨w', hw', hpair⟩ := h.pairs w hw
    obtain ⟨w'', hw'', hpair'⟩ := h'.pairs w' hw'
    exact ⟨w'', hw'', hpair'.trans hpair⟩

end Solution

namespace Spread

variable {g : Graph} {l : Lattice} {budget : Budget} {parts : List (List NodeId)} {t : Solution}

/-- The flow is where the run over one of the parts ended, and the solution upholds it. -/
structure RanIn (g : Graph) (l : Lattice) (parts : List (List NodeId)) (t : Solution)
    (p : List NodeId) (f : Flow) : Prop where
  part : p ∈ parts
  run : ∃ budget, run g l p budget = .ok (f.solution, f.budget)
  reachable : Reachable g l p f
  upheld : f.solution.Upheld t

/-- Everything in the solution is from a run over one of the parts. -/
structure Composed (g : Graph) (l : Lattice) (parts : List (List NodeId)) (t : Solution) :
    Prop where
  facts : ∀ v, t.factsOf v = {} ∨ ∃ p f, RanIn g l parts t p f ∧ t.factsOf v = f.factsOf v
  witnesses : ∀ w ∈ t.witnesses, ∃ p f, RanIn g l parts t p f ∧ w ∈ f.witnesses.toList

theorem RanIn.later {p q : List NodeId} {f : Flow} {u : Solution} (h : RanIn g l parts t p f)
    (hu : t.Upheld u) : RanIn g l (q :: parts) u p f :=
  ⟨List.mem_cons_of_mem q h.part, h.run, h.reachable, h.upheld.trans hu⟩

theorem composed_of_runAll (hl : l.Lawful) (hg : g.Over l) (hcl : g.Closed)
    (hnodup : ∀ p ∈ parts, p.Nodup) (hdisj : parts.Pairwise List.Disjoint)
    (hin : ∀ p ∈ parts, ∀ e ∈ g.edges.toList, e.source ∈ p → e.target ∈ p)
    (hfits : budget.used ≤ budget.cap) {r : Solution × Budget}
    (h : runAll g l budget parts = .ok r) : Composed g l parts r.1 := by
  induction parts generalizing budget r with
  | nil =>
    cases h
    exact ⟨fun _ => .inl rfl, fun w hw => absurd hw List.not_mem_nil⟩
  | cons p parts ih =>
    obtain ⟨hp, hdisj⟩ := List.pairwise_cons.1 hdisj
    have hnodup' : ∀ q ∈ parts, q.Nodup := fun q hq => hnodup q (List.mem_cons_of_mem p hq)
    have hin' : ∀ q ∈ parts, ∀ e ∈ g.edges.toList, e.source ∈ q → e.target ∈ q :=
      fun q hq => hin q (List.mem_cons_of_mem p hq)
    rw [runAll] at h
    obtain ⟨r₁, h₁, h⟩ := bind_eq_ok.1 h
    obtain ⟨⟨t, b⟩, ht, h⟩ := bind_eq_ok.1 h
    cases h
    have hrun : Ends _ (Fails g budget.cap False) (run g l p budget) :=
      run_ends hl hg hcl (hin p List.mem_cons_self) (hnodup p List.mem_cons_self) hfits False.elim
    rw [h₁] at hrun
    obtain ⟨f, rfl, hf, -, hcap, hused, -⟩ := hrun
    rw [← hcap] at hused
    have hrest : Ends _ (Fails g f.budget.cap False) (runAll g l f.budget parts) :=
      runAll_ends hl hg hcl hnodup' hdisj hin' hused False.elim
    rw [ht] at hrest
    have hcomposed := ih hnodup' hdisj hin' hused ht
    -- what is known in the run is known of its own nodes
    have hapart : f.solution.Apart t := by
      intro v
      by_cases hv : v ∈ p
      · refine .inr (hrest.1.within v fun hflat => ?_)
        obtain ⟨q, hq, hvq⟩ := List.mem_flatten.1 hflat
        exact hp q hq hv hvq
      · refine .inl (Option.eq_none_iff_forall_ne_some.2 fun x hx => hv ?_)
        exact hf.within (hin p List.mem_cons_self) v x hx
    have hfirst : RanIn g l (p :: parts) (f.solution.absorb t) p f :=
      ⟨List.mem_cons_self, ⟨budget, h₁⟩, hf, Solution.upheld_absorb_left hapart⟩
    have hright := Solution.upheld_absorb_right hapart
    refine ⟨fun v => ?_, fun w hw => ?_⟩
    · rcases Solution.factsOf_absorb hapart v with ⟨heq, -⟩ | ⟨heq, -⟩
      · exact .inr ⟨p, f, hfirst, heq⟩
      · rw [heq]
        rcases hcomposed.facts v with hnone | ⟨q, f', hf', hsame⟩
        · exact .inl hnone
        · exact .inr ⟨q, f', hf'.later hright, hsame⟩
    · rcases List.mem_append.1 hw with hw | hw
      · exact ⟨p, f, hfirst, hw⟩
      · obtain ⟨q, f', hf', hw⟩ := hcomposed.witnesses w hw
        exact ⟨q, f', hf'.later hright, hw⟩

namespace Composed

variable (hl : l.Lawful) (hg : g.Over l)

include hl hg

theorem genuine (h : Composed g l parts t) : ∀ w ∈ t.witnesses, w.Genuine g l t := by
  intro w hw
  obtain ⟨p, f, hf, hw⟩ := h.witnesses w hw
  exact (hf.reachable.genuine hl hg w hw).mono hf.upheld

theorem complete (h : Composed g l parts t) : t.Complete g l where
  met v a b ha hb hne hodds := by
    rw [Solution.Holds] at ha hb
    rcases h.facts v with hnone | ⟨p, f, hf, hsame⟩
    · rw [hnone] at ha
      exact absurd ha NodeFacts.not_holds_empty
    · rw [hsame] at ha hb
      exact ((hf.reachable.complete hl hg).met v a b ha hb hne hodds).mono hf.upheld
  denied v a code hcode ha hout := by
    rw [Solution.Holds] at ha
    rcases h.facts v with hnone | ⟨p, f, hf, hsame⟩
    · rw [hnone] at ha
      exact absurd ha NodeFacts.not_holds_empty
    · rw [hsame] at ha
      exact ((hf.reachable.complete hl hg).denied v a code hcode ha hout).mono hf.upheld
  conflicted v hv := by
    rw [Solution.state_eq] at hv
    rcases h.facts v with hnone | ⟨p, f, hf, hsame⟩
    · rw [hnone] at hv
      cases hv
    · rw [hsame] at hv
      have hstate : f.solution.state v = .conflicted := Solution.state_eq.trans hv
      obtain ⟨w, hw⟩ := List.exists_mem_of_ne_nil _
        ((hf.reachable.complete hl hg).conflicted v hstate)
      obtain ⟨w', hw', -⟩ := hf.upheld.pairs w hw
      exact List.ne_nil_of_mem hw'

end Composed

end Spread

namespace Graph

variable {g : Graph} {l : Lattice} {settings : SolverSettings} {s : Solution}

theorem composed_of_solve (hl : l.Lawful) (hg : g.Over l) (hcl : g.Closed)
    (h : g.solve l settings = .ok s) : Spread.Composed g l g.components s := by
  obtain ⟨cap, -, h⟩ := bind_eq_ok.1 h
  obtain ⟨r, hr, h⟩ := bind_eq_ok.1 h
  cases h
  exact Spread.composed_of_runAll hl hg hcl (fun p => nodup_of_mem_components hcl)
    (disjoint_components hcl) (fun p hp e he => (edge_within_component hcl hp he).1)
    (Nat.zero_le _) hr

theorem evident_of_solve (hl : l.Lawful) (hg : g.Over l) (hcl : g.Closed)
    (h : g.solve l settings = .ok s) :
    (∀ w ∈ s.witnesses, w.Genuine g l s) ∧ s.Complete g l := by
  have hcomposed := composed_of_solve hl hg hcl h
  exact ⟨hcomposed.genuine hl hg, hcomposed.complete hl hg⟩

/--
Every witness of a solution is genuine, whatever the lattice, the graph and the cap: its sides are
levels that travelled to the node where they meet, and cannot be there together.
-/
theorem witnesses_genuine {names : List String} {spec : LatticeSpec}
    (hl : Lattice.build names spec = .ok l) (hcl : g.Closed) (hg : g.Over l)
    (hs : g.solve l settings = .ok s) : ∀ w ∈ s.witnesses, w.Genuine g l s :=
  (evident_of_solve (Lattice.build_lawful hl) hg hcl hs).1

/-- Two levels meet below one that excludes itself, two meet apart, and one where it may not be. -/
def contested : Program where
  labels := {
    functions := .ofList [
      ("sensor", { level := some "red" }),
      ("store", { level := some "blue" }),
      ("lamp", { level := some "green" }),
      ("guard", { taint := some { code := some ["green", "top"] } })] }
  ir := {
    defUse := [⟨"sensor", "mixer", none⟩, ⟨"store", "mixer", none⟩, ⟨"sensor", "relay", none⟩,
      ⟨"relay", "sink", none⟩, ⟨"lamp", "sink", none⟩, ⟨"store", "guard", none⟩] }

def contestedLevels : LatticeSpec where
  order := [("red", "top"), ("blue", "top")]
  exclusive := [("top", "top")]

theorem witnesses_genuine_contested :
    ∃ (names : List String) (l : Lattice) (g : Graph) (s : Solution),
    Lattice.build names contestedLevels = .ok l ∧ g.Closed ∧ g.Over l ∧ g.solve l {} = .ok s ∧
    (∃ w ∈ s.witnesses, w.kind = .taint) ∧
    (∃ w ∈ s.witnesses, w.kind ≠ .taint ∧
      l.compatible w.incoming.level w.existing.level = true) ∧
    (∃ w ∈ s.witnesses, w.incoming.distance = 2 ∧
      l.compatible w.incoming.level w.existing.level = false) ∧
    ∀ w ∈ s.witnesses, w.Genuine g l s := by
  have hrun : (Analysis.prepare { lattice := contestedLevels } contested).toOption.any (fun r =>
      r.toOption.any fun p => (p.graph.solve p.lattice {}).toOption.any fun s => decide (
        (∃ w ∈ s.witnesses, w.kind = .taint) ∧
        (∃ w ∈ s.witnesses, w.kind ≠ .taint ∧
          p.lattice.compatible w.incoming.level w.existing.level = true) ∧
        ∃ w ∈ s.witnesses, w.incoming.distance = 2 ∧
          p.lattice.compatible w.incoming.level w.existing.level = false)) = true := by
    decide +kernel
  obtain ⟨r, hp, hr⟩ := exists_ok_of_any hrun
  obtain ⟨p, rfl, hsolve⟩ := exists_ok_of_any hr
  obtain ⟨s, hs, hcheck⟩ := exists_ok_of_any hsolve
  obtain ⟨htaint, hmissing, hodds⟩ := of_decide_eq_true hcheck
  have hvalid := Analysis.valid_of_prepare hp
  have hlattice := (Analysis.prepare_eq_ok hp).1
  exact ⟨_, p.lattice, p.graph, s, hlattice, hvalid.closed, hvalid.labels, hs, htaint, hmissing,
    hodds, witnesses_genuine hlattice hvalid.closed hvalid.labels hs⟩

/--
Every reason for which a solution is none shows among its witnesses: two levels at odds at a node, a
level outside the code taint of a function, and a node that is conflicted.
-/
theorem witnesses_complete {names : List String} {spec : LatticeSpec}
    (hl : Lattice.build names spec = .ok l) (hcl : g.Closed) (hg : g.Over l)
    (hs : g.solve l settings = .ok s) : s.Complete g l :=
  (evident_of_solve (Lattice.build_lawful hl) hg hcl hs).2

theorem witnesses_complete_contested :
    ∃ (names : List String) (l : Lattice) (g : Graph) (s : Solution),
    Lattice.build names contestedLevels = .ok l ∧ g.Closed ∧ g.Over l ∧ g.solve l {} = .ok s ∧
    s.Met g 6 1 2 ∧ s.Denied g 0 0 ∧ s.state 4 = .conflicted ∧ s.Complete g l := by
  have hrun : (Analysis.prepare { lattice := contestedLevels } contested).toOption.any (fun r =>
      r.toOption.any fun p => (p.graph.solve p.lattice {}).toOption.any fun s => decide (
        ((s.factsOf 6).levels.contains 1 ∧ (s.factsOf 6).levels.contains 2 ∧
          p.lattice.compatible 1 2 = false) ∧
        ((p.graph.nodes[0]?.bind (·.code?)).any (fun code => !code.contains 0) ∧
          (s.factsOf 0).levels.contains 0) ∧
        s.state 4 = .conflicted)) = true := by decide +kernel
  obtain ⟨r, hp, hr⟩ := exists_ok_of_any hrun
  obtain ⟨p, rfl, hsolve⟩ := exists_ok_of_any hr
  obtain ⟨s, hs, hcheck⟩ := exists_ok_of_any hsolve
  obtain ⟨⟨h₁, h₂, hodds⟩, ⟨hcode, h₀⟩, hconflicted⟩ := of_decide_eq_true hcheck
  obtain ⟨code, hcode, hout⟩ := (Option.any_eq_true _ _).1 hcode
  rw [Bool.not_eq_true', ← Bool.not_eq_true, SortedSet.contains_iff] at hout
  have hvalid := Analysis.valid_of_prepare hp
  have hlattice := (Analysis.prepare_eq_ok hp).1
  have hcomplete := witnesses_complete hlattice hvalid.closed hvalid.labels hs
  exact ⟨_, p.lattice, p.graph, s, hlattice, hvalid.closed, hvalid.labels, hs,
    hcomplete.met 6 1 2 (NodeFacts.contains_levels_iff.1 h₁) (NodeFacts.contains_levels_iff.1 h₂)
      (by decide) hodds,
    hcomplete.denied 0 0 code hcode (NodeFacts.contains_levels_iff.1 h₀) hout, hconflicted,
    hcomplete⟩

end Graph

end Enclave
