import Enclave.Proofs.Metering
import Enclave.Proofs.Witnesses

/-!
# Enclave.Proofs.Merging

Two spreads over sets of nodes that no edge joins, and one over both. `Flow.Joint A B s t u` says
that the flow `u` is what `s` knows of the nodes in `A` and what `t` knows of those in `B`. A
function of the spread that works on a node in `A` does the same to `s` and to `u`, and leaves `t`
out (`Keeps`).

* `loop_merged`: a loop over entries of both sorts is the two loops over the entries of each.
* `rounds_merged`: so are the rounds, one by one, and with them a whole run.
* `runCourse_split`, `runCourse_join`: a run over all nodes takes the steps of both parts.
-/

namespace Enclave

attribute [local instance] lexOrd

open Std

namespace SortedMap

variable {κ ν : Type} [Ord κ] [BEq κ] {A B : κ → Prop} {m m' n : SortedMap κ ν} {k : κ} {v : ν}

/-- The entries of a map are those of two others, which their keys tell apart. -/
structure Splits (A B : κ → Prop) (m m' n : SortedMap κ ν) : Prop where
  left : ∀ k v, m.get? k = some v → A k
  right : ∀ k v, m'.get? k = some v → B k
  either : ∀ k, n.get? k = (m.get? k).or (m'.get? k)

namespace Splits

theorem empty : Splits A B (∅ : SortedMap κ ν) ∅ ∅ where
  left k v h := by cases h
  right k v h := by cases h
  either k := rfl

theorem get?_eq (h : Splits A B m m' n) (hk : ¬ B k) : n.get? k = m.get? k := by
  have hnone : m'.get? k = none :=
    Option.eq_none_iff_forall_ne_some.2 fun v hv => hk (h.right k v hv)
  rw [h.either, hnone, Option.or_none]

theorem symm (hAB : ∀ k, A k → ¬ B k) (h : Splits A B m m' n) : Splits B A m' m n where
  left := h.right
  right := h.left
  either k := by
    rw [h.either]
    cases hm : m.get? k with
    | none => simp
    | some v =>
      cases hm' : m'.get? k with
      | none => simp
      | some v' => exact absurd (h.right k v' hm') (hAB k (h.left k v hm))

theorem insert [LawfulBEq κ] [TransOrd κ] [LawfulEqOrd κ] (h : Splits A B m m' n) (hk : A k) :
    Splits A B (m.insert k v) m' (n.insert k v) where
  left k' v' hk' := by
    by_cases heq : k' = k
    · rwa [heq]
    · rw [get?_insert_of_ne heq] at hk'
      exact h.left k' v' hk'
  right := h.right
  either k' := by
    by_cases heq : k' = k
    · simp [heq]
    · rw [get?_insert_of_ne heq, get?_insert_of_ne heq, h.either]

theorem values_perm [LawfulBEq κ] [ReflOrd κ] (hAB : ∀ k, A k → ¬ B k) (h : Splits A B m m' n) :
    n.values.Perm (m.values ++ m'.values) := by
  have hdisj : m.toList.Disjoint m'.toList := by
    intro e he he'
    have hleft := h.left e.1 e.2 (get?_eq_some_iff.2 he)
    exact hAB e.1 hleft (h.right e.1 e.2 (get?_eq_some_iff.2 he'))
  have hperm : n.toList.Perm (m.toList ++ m'.toList) := by
    refine (List.perm_ext_iff_of_nodup (nodup_toList n) ?_).2 fun e => ?_
    · exact (nodup_toList m).append (nodup_toList m') hdisj
    · rw [List.mem_append, ← get?_eq_some_iff (m := n) (k := e.1) (v := e.2),
        ← get?_eq_some_iff (m := m) (k := e.1) (v := e.2),
        ← get?_eq_some_iff (m := m') (k := e.1) (v := e.2), h.either]
      cases hm : m.get? e.1 with
      | none => simp
      | some v =>
        have hleft := h.left e.1 v hm
        have hnone : m'.get? e.1 = none :=
          Option.eq_none_iff_forall_ne_some.2 fun v' hv' => hAB e.1 hleft (h.right e.1 v' hv')
        simp [hnone]
  rw [values, values, values, ← List.map_append]
  exact hperm.map _

end Splits

end SortedMap

namespace Flow

variable {A B : NodeId → Prop} {s t u : Flow} {v : NodeId} {a : Level} {o : Origin} {f : NodeFacts}
  {e : EdgeId × Level}

/-- What one flow knows, carried and has pending is divided between two others, node by node. -/
structure Joint (A B : NodeId → Prop) (s t u : Flow) : Prop where
  apart : ∀ v, A v → ¬ B v
  facts : SortedMap.Splits A B s.facts t.facts u.facts
  seeds : ∀ v a o, (s.factsOf v).levels.get? a = some o → A o.seed
  seeds' : ∀ v a o, (t.factsOf v).levels.get? a = some o → B o.seed
  witnesses : SortedMap.Splits (fun k => A k.1) (fun k => B k.1) s.witnesses.byPair
    t.witnesses.byPair u.witnesses.byPair
  carried : ∀ p, p ∈ u.carried.toList ↔ p ∈ s.carried.toList ∨ p ∈ t.carried.toList
  pending : ∀ p, p ∈ u.pending.toList ↔ p ∈ s.pending.toList ∨ p ∈ t.pending.toList
  inside : ∀ p ∈ s.pending.toList, A p.1
  inside' : ∀ p ∈ t.pending.toList, B p.1

namespace Joint

theorem symm (h : Joint A B s t u) : Joint B A t s u where
  apart v hB hA := h.apart v hA hB
  facts := h.facts.symm h.apart
  seeds := h.seeds'
  seeds' := h.seeds
  witnesses := h.witnesses.symm fun k => h.apart k.1
  carried p := by rw [h.carried, or_comm]
  pending p := by rw [h.pending, or_comm]
  inside := h.inside'
  inside' := h.inside

theorem blank (hAB : ∀ v, A v → ¬ B v) : Joint A B blank blank blank where
  apart := hAB
  facts := .empty
  seeds _ _ _ h := by cases h
  seeds' _ _ _ h := by cases h
  witnesses := .empty
  carried p := by simp
  pending p := by simp
  inside p hp := absurd hp List.not_mem_nil
  inside' p hp := absurd hp List.not_mem_nil

theorem of_on (b b' : Budget) (h : Joint A B (s.on b) t (u.on b')) : Joint A B s t u :=
  ⟨h.apart, h.facts, h.seeds, h.seeds', h.witnesses, h.carried, h.pending, h.inside, h.inside'⟩

theorem on (h : Joint A B s t u) (b b' : Budget) : Joint A B (s.on b) t (u.on b') :=
  ⟨h.apart, h.facts, h.seeds, h.seeds', h.witnesses, h.carried, h.pending, h.inside, h.inside'⟩

theorem factsOf_eq (h : Joint A B s t u) (hv : A v) : u.factsOf v = s.factsOf v := by
  rw [factsOf, factsOf, h.facts.get?_eq (h.apart v hv)]

theorem putFacts (h : Joint A B s t u) (hv : A v)
    (hf : ∀ a o, f.levels.get? a = some o → A o.seed) :
    Joint A B { s with facts := s.facts.insert v f } t { u with facts := u.facts.insert v f } :=
  { h with
    facts := h.facts.insert hv
    seeds := by
      intro w a o ho
      by_cases hw : w = v
      · subst hw
        rw [factsOf_insert rfl] at ho
        exact hf a o ho
      · refine h.seeds w a o ?_
        rw [factsOf] at ho ⊢
        rwa [SortedMap.get?_insert_of_ne hw] at ho }

theorem putPending (h : Joint A B s t u) (hv : A v) (a : Level) :
    Joint A B { s with pending := s.pending.insert (v, a) } t
      { u with pending := u.pending.insert (v, a) } :=
  { h with
    pending := by
      intro p
      simp only [SortedSet.mem_insert, h.pending, or_assoc]
    inside := by
      intro p hp
      rcases SortedSet.mem_insert.1 hp with rfl | hp
      · exact hv
      · exact h.inside p hp }

theorem putCarried (h : Joint A B s t u) (e : EdgeId × Level) :
    Joint A B { s with carried := s.carried.insert e } t
      { u with carried := u.carried.insert e } :=
  { h with
    carried := by
      intro p
      simp only [SortedSet.mem_insert, h.carried, or_assoc] }

theorem clear (h : Joint A B s t u) :
    Joint A B { s with pending := ∅ } { t with pending := ∅ } { u with pending := ∅ } :=
  { h with
    pending := fun p => by simp
    inside := fun p hp => absurd hp List.not_mem_nil
    inside' := fun p hp => absurd hp List.not_mem_nil }

end Joint

end Flow

namespace Spread

open NodeFacts Enclave.Flow

variable {g : Graph} {l : Lattice} {A B : NodeId → Prop} {s t u : Flow} {v : NodeId} {a : Level}
  {o : Origin} {f : NodeFacts} {kind : ConflictKind} {members : List NodeId} {m n : Nat}

/-! ## One node -/

theorem pair_of_mem_evidence {w : Witness} (hv : A v) (ho : A o.seed)
    (hf : ∀ a o, f.levels.get? a = some o → A o.seed) (hw : w ∈ evidence g l f v a o kind) :
    A w.pair.1 := by
  have hsides : A w.incoming.seed ∧ A w.existing.seed := by
    rcases mem_evidence.1 hw with ⟨p, hp, rfl⟩ | ⟨b, -, rfl⟩
    · exact ⟨ho, hf p.1 p.2 (mem_of_mem_opponents hp)⟩
    · exact ⟨ho, hv⟩
  unfold Witness.pair
  split
  · exact hsides.1
  · exact hsides.2

theorem record_both {ws wt wu : WitnessSet} {w : Witness}
    (h : SortedMap.Splits (fun k => A k.1) (fun k => B k.1) ws.byPair wt.byPair wu.byPair)
    (hAB : ∀ v, A v → ¬ B v) (hw : A w.pair.1) :
    Both (fun ws' wu' => SortedMap.Splits (fun k => A k.1) (fun k => B k.1) ws'.byPair wt.byPair
      wu'.byPair) (ws.record w) (wu.record w) := by
  have hget : wu.byPair.get? w.pair = ws.byPair.get? w.pair := h.get?_eq (hAB _ hw)
  rw [WitnessSet.record, WitnessSet.record, hget]
  cases ws.byPair.get? w.pair with
  | none => exact h.insert hw
  | some kept =>
    dsimp only
    cases kept.combinedDistance with
    | error c => rfl
    | ok old =>
      cases w.combinedDistance with
      | error c => rfl
      | ok new =>
        simp only [bind, Except.bind, pure, Except.pure, Both]
        split
        · exact h
        · exact h.insert hw

theorem recordAll_both {ws wt wu : WitnessSet} {xs : List Witness}
    (h : SortedMap.Splits (fun k => A k.1) (fun k => B k.1) ws.byPair wt.byPair wu.byPair)
    (hAB : ∀ v, A v → ¬ B v) (hxs : ∀ w ∈ xs, A w.pair.1) :
    Both (fun ws' wu' => SortedMap.Splits (fun k => A k.1) (fun k => B k.1) ws'.byPair wt.byPair
      wu'.byPair) (ws.recordAll xs) (wu.recordAll xs) := by
  unfold WitnessSet.recordAll
  refine Both.foldlM ?_ h
  intro w hw ws' wu' hws
  exact record_both hws hAB (hxs w hw)

theorem Joint.settled (h : Joint A B s t u) (hv : A v) (ho : A o.seed) {ws wu : WitnessSet}
    (hws : SortedMap.Splits (fun k => A k.1) (fun k => B k.1) ws.byPair t.witnesses.byPair
      wu.byPair) :
    Joint A B (settled l s v a o ws) t (settled l u v a o wu) := by
  have hwith : Joint A B { s with witnesses := ws } t { u with witnesses := wu } :=
    { h with witnesses := hws }
  have hf : ∀ c o', ((s.factsOf v).add l a o).levels.get? c = some o' → A o'.seed := by
    intro c o' hc
    rw [get?_add] at hc
    by_cases hca : c = a
    · rw [if_pos hca] at hc
      cases hc
      exact ho
    · rw [if_neg hca] at hc
      exact h.seeds v c o' hc
  have := (hwith.putFacts hv hf).putPending hv a
  rw [Spread.settled, Spread.settled, h.factsOf_eq hv]
  exact this

/-- The two flows are on one budget, and the second is the first with `t` beside it. -/
def Abreast (A B : NodeId → Prop) (t s u : Flow) : Prop := Joint A B s t u ∧ s.budget = u.budget

theorem arriveWithin_both {k : Nat} (h : Abreast A B t s u) (hv : A v) (ho : A o.seed) :
    Both (Abreast A B t) (arriveWithin g l v kind k s a o) (arriveWithin g l v kind k u a o) := by
  induction k generalizing s u a o with
  | zero => exact h
  | succ k ih =>
    obtain ⟨hj, hb⟩ := h
    have hfacts := hj.factsOf_eq hv
    rw [arriveWithin, arriveWithin, hfacts]
    cases hget : (s.factsOf v).levels.get? a with
    | some known =>
      dsimp only
      rw [improve, improve, hfacts]
      by_cases hlt : (o.order g known).isLT = true
      · rw [if_pos hlt, if_pos hlt]
        refine ⟨hj.putFacts hv fun c o' hc => ?_, hb⟩
        by_cases hca : c = a
        · rw [hca, SortedMap.get?_insert_self] at hc
          cases hc
          exact ho
        · rw [SortedMap.get?_insert_of_ne hca] at hc
          exact hj.seeds v c o' hc
      · rw [if_neg hlt, if_neg hlt]
        exact ⟨hj, hb⟩
    | none =>
      dsimp only
      rw [settle_eq, settle_eq, hfacts, bind_assoc, bind_assoc]
      refine (recordAll_both hj.witnesses hj.apart fun w hw =>
        pair_of_mem_evidence hv ho (hj.seeds v) hw).bind fun ws wu hws => ?_
      have hsettled : Abreast A B t (settled l s v a o ws) (settled l u v a o wu) :=
        ⟨Joint.settled hj hv ho hws, hb⟩
      simp only [pure_bind]
      cases (s.factsOf v).raised? l a o with
      | none => exact hsettled
      | some c => exact ih hsettled hv

/-- Wherever two flows are abreast, the function keeps them so. -/
def Keeps (A B : NodeId → Prop) (f : Flow → Except SolveError Flow) : Prop :=
  ∀ s t u, Abreast A B t s u → Both (Abreast A B t) (f s) (f u)

theorem take_both (h : Abreast A B t s u) : Both (Abreast A B t) s.take u.take := by
  rw [Flow.take, Flow.take, h.2]
  cases u.budget.take with
  | error e => rfl
  | ok b => exact ⟨h.1.on b b, rfl⟩

theorem arrive_both (h : Abreast A B t s u) (hv : A v) (ho : A o.seed) (via : Option Kinds) :
    Both (Abreast A B t) (arrive g l s v a o via) (arrive g l u v a o via) :=
  (arriveWithin_both h hv ho).mapError

theorem seed_of_step {next : Origin} (h : o.step = .ok next) : next.seed = o.seed := by
  obtain ⟨d, -, h⟩ := bind_eq_ok.1 h
  cases h
  rfl

theorem deliver_keeps {e : Edge × EdgeId} (he : A e.1.target) (ho : A o.seed) :
    Keeps A B (deliver g l a o · e) := by
  intro s t u h
  dsimp only
  rw [deliver, deliver]
  cases hstep : o.step with
  | error c => rfl
  | ok next =>
    refine Both.bind (R := Abreast A B t) (take_both h) fun s' u' h' => ?_
    by_cases hadm : admits g e.1 a = true
    · rw [if_pos hadm, if_pos hadm]
      exact h'
    · rw [if_neg hadm, if_neg hadm]
      exact arrive_both ⟨h'.1.putCarried _, h'.2⟩ he (by rwa [seed_of_step hstep]) _

theorem plant_keeps (hv : A v) : Keeps A B (plant g l · v) := by
  intro s t u h
  dsimp only
  rw [plant, plant]
  cases g.nodes[v]?.bind (·.seed?) with
  | none => exact h
  | some a => exact (take_both h).bind fun s' u' h' => arrive_both h' hv hv none

section Edges

variable (hA : ∀ e ∈ g.edges.toList, A e.source → A e.target)

include hA

theorem target_of_mem_successors {e : Edge × EdgeId} (hv : A v) (he : e ∈ g.successors v) :
    A e.1.target := by
  obtain ⟨hget, rfl⟩ := Graph.mem_successors.1 he
  exact hA e.1 (Array.mem_toList_iff.2 (Array.mem_of_getElem? hget)) hv

theorem sendReturn_keeps (hv : A v) : Keeps A B (sendReturn g l · v) := by
  intro s t u h
  dsimp only
  rw [sendReturn, sendReturn]
  cases g.nodes[v]?.bind (·.singleReturn?) with
  | none => exact h
  | some a =>
    refine Both.foldlM (fun e he s' u' h' => ?_) h
    exact deliver_keeps (target_of_mem_successors hA hv (mem_returnEdges.1 he).1) hv s' t u' h'

theorem forward_keeps {p : NodeId × Level} (hp : A p.1) : Keeps A B (forward g l · p) := by
  intro s t u h
  dsimp only
  rw [forward, forward, h.1.factsOf_eq hp]
  cases hget : (s.factsOf p.1).levels.get? p.2 with
  | none => exact h
  | some o =>
    refine Both.foldlM (fun e he s' u' h' => ?_) h
    exact deliver_keeps (target_of_mem_successors hA hp (mem_onwardEdges.1 he).1)
      (h.1.seeds _ _ _ hget) s' t u' h'

end Edges

/-! ## Both parts at once -/

/-- The computation ends in an overflow. -/
def Breaks (x : Budget → Except SolveError Flow) : Prop := ∃ n c, Course x n (.error c)

/--
The third computation is the first two: it takes the steps of both and ends where both end, or it
breaks where one of them does.
-/
inductive Merged (A B : NodeId → Prop) (x y z : Budget → Except SolveError Flow) : Prop
  | done {n m : Nat} {s t u : Flow} : Course x n (.ok s) → Course y m (.ok t) →
      Course z (n + m) (.ok u) → Joint A B s t u → Merged A B x y z
  | broken : Breaks x ∨ Breaks y → Breaks z → Merged A B x y z

section Computations

variable {x y z : Budget → Except SolveError Flow} {f f' f'' : Flow → Except SolveError Flow}

theorem Breaks.bind (h : Breaks x) : Breaks fun b => x b >>= f := by
  obtain ⟨n, c, h⟩ := h
  exact ⟨n, c, h.bind_error⟩

theorem Course.breaks (h : Course x n (.ok s)) (h' : Breaks fun b => f (s.on b)) :
    Breaks fun b => x b >>= f := by
  obtain ⟨m, c, h'⟩ := h'
  exact ⟨n + m, c, h.bind h'⟩

theorem Course.not_breaks (h : Course x n (.ok s)) : ¬ Breaks x := by
  rintro ⟨m, c, h'⟩
  obtain ⟨-, b, hs'⟩ := h.unique h'
  cases hs'

theorem Merged.symm (h : Merged A B x y z) : Merged B A y x z := by
  cases h with
  | @done n m s t u hx hy hz hj => exact .done hy hx (Nat.add_comm n m ▸ hz) hj.symm
  | broken h hz => exact .broken h.symm hz

theorem Merged.bind (h : Merged A B x y z)
    (hf : ∀ s t u, Joint A B s t u →
      Merged A B (fun b => f (s.on b)) (fun b => f' (t.on b)) fun b => f'' (u.on b)) :
    Merged A B (fun b => x b >>= f) (fun b => y b >>= f') fun b => z b >>= f'' := by
  cases h with
  | broken h hz => exact .broken (h.imp Breaks.bind Breaks.bind) hz.bind
  | @done n m s t u hx hy hz hj =>
    cases hf s t u hj with
    | broken h hz' => exact .broken (h.imp hx.breaks hy.breaks) (hz.breaks hz')
    | @done n' m' s' t' u' hx' hy' hz' hj' =>
      refine .done (hx.bind hx') (hy.bind hy') ?_ hj'
      have hsum : n + n' + (m + m') = n + m + (n' + m') := by omega
      rw [hsum]
      exact hz.bind hz'

/-- A function that works on one part alone, followed by more work on both. -/
theorem Merged.step (hk : Keeps A B f) (hm : ∀ s, Metered f s) (h : Joint A B s t u)
    (hrest : ∀ s' u', Joint A B s' t u' →
      Merged A B (fun b => f' (s'.on b)) y fun b => f'' (u'.on b)) :
    Merged A B (fun b => f (s.on b) >>= f') y fun b => f (u.on b) >>= f'' := by
  obtain ⟨n, r, hs, -⟩ := hm s
  obtain ⟨m, r', hu, -⟩ := hm u
  -- on a budget that is enough for both the two end alike
  have hboth := hk (s.on ⟨n + m, 0⟩) t (u.on ⟨n + m, 0⟩) ⟨h.on _ _, rfl⟩
  rw [hs.eq_of_le (b := ⟨n + m, 0⟩) (by simp), hu.eq_of_le (b := ⟨n + m, 0⟩) (by simp)] at hboth
  cases r with
  | error c =>
    cases r' with
    | error c' => exact .broken (.inl (Breaks.bind ⟨n, c, hs⟩)) (Breaks.bind ⟨m, c', hu⟩)
    | ok u' => cases hboth
  | ok s' =>
    cases r' with
    | error c' => cases hboth
    | ok u' =>
      obtain ⟨hj, hused⟩ := hboth
      have hnm : n = m := by simpa using hused
      subst hnm
      cases hrest s' u' (hj.of_on _ _) with
      | broken hbr hz =>
        exact .broken (hbr.imp hs.breaks id) (hu.breaks hz)
      | @done n' m' s₂ t₂ u₂ hx hy hz hj₂ =>
        exact .done (hs.bind hx) hy (Nat.add_assoc n n' m' ▸ hu.bind hz) hj₂

end Computations

theorem loop_merged {β : Type} {f : Flow → β → Except SolveError Flow} {q : β → Bool}
    (hm : ∀ z s, Metered (f · z) s) {zs : List β}
    (hin : ∀ z ∈ zs, q z = true → Keeps A B (f · z))
    (hout : ∀ z ∈ zs, q z = false → Keeps B A (f · z)) (h : Joint A B s t u) :
    Merged A B (fun b => (zs.filter q).foldlM f (s.on b))
      (fun b => (zs.filter (!q ·)).foldlM f (t.on b)) fun b => zs.foldlM f (u.on b) := by
  induction zs generalizing s t u with
  | nil => exact .done (Course.ok s) (Course.ok t) (Course.ok u) h
  | cons z zs ih =>
    have ih' : ∀ s t u, Joint A B s t u → Merged A B (fun b => (zs.filter q).foldlM f (s.on b))
        (fun b => (zs.filter (!q ·)).foldlM f (t.on b)) fun b => zs.foldlM f (u.on b) :=
      fun s t u h => ih (fun z' hz' => hin z' (List.mem_cons_of_mem z hz'))
        (fun z' hz' => hout z' (List.mem_cons_of_mem z hz')) h
    cases hq : q z with
    | true =>
      simp only [List.filter_cons, hq, Bool.not_true, Bool.false_eq_true, if_true, if_false,
        List.foldlM_cons]
      exact .step (hin z List.mem_cons_self hq) (hm z) h fun s' u' h' => ih' s' t u' h'
    | false =>
      simp only [List.filter_cons, hq, Bool.not_false, Bool.false_eq_true, if_true, if_false,
        List.foldlM_cons]
      refine Merged.symm (.step (hout z List.mem_cons_self hq) (hm z) h.symm fun t' u' h' => ?_)
      exact (ih' s t' u' h'.symm).symm

/-! ## Rounds and runs -/

theorem rounds_succ (k : Nat) (s : Flow) :
    rounds g l (k + 1) s = (do rounds g l k (← round g l s)) := by
  cases hempty : s.pending.isEmpty with
  | false => exact rounds_succ_of_pending hempty
  | true =>
    have hpending : s.pending.toList = [] := SortedSet.isEmpty_iff.1 hempty
    have hcleared : { s with pending := ∅ } = s := by
      have : s.pending = ∅ := SortedSet.ext_mem fun p => by rw [hpending]; rfl
      rw [← this]
    have hround : round g l s = .ok s := by
      rw [round, hpending, hcleared]
      rfl
    rw [rounds_of_isEmpty hempty, hround]
    exact (rounds_of_isEmpty hempty).symm

section Parts

variable {q : NodeId → Bool} (hq : ∀ e ∈ g.edges.toList, q e.source = q e.target)

include hq

theorem round_merged (h : Joint (q · = true) (q · = false) s t u) :
    Merged (q · = true) (q · = false) (fun b => round g l (s.on b)) (fun b => round g l (t.on b))
      fun b => round g l (u.on b) := by
  -- each part sends what is pending there, in the order of the whole
  have hs : s.pending.toList = u.pending.toList.filter fun p => q p.1 := by
    refine SortedSet.toList_eq_of_mem (u.pending.ascending.filter _) fun p => ?_
    rw [List.mem_filter, h.pending]
    refine ⟨fun hp => ⟨.inl hp, h.inside p hp⟩, fun hp => hp.1.resolve_right fun hp' => ?_⟩
    exact h.apart p.1 hp.2 (h.inside' p hp')
  have ht : t.pending.toList = u.pending.toList.filter fun p => !q p.1 := by
    refine SortedSet.toList_eq_of_mem (u.pending.ascending.filter _) fun p => ?_
    rw [List.mem_filter, h.pending]
    refine ⟨fun hp => ⟨.inr hp, by simp [h.inside' p hp]⟩,
      fun hp => hp.1.resolve_left fun hp' => ?_⟩
    exact h.apart p.1 (h.inside p hp') (by simpa using hp.2)
  have := loop_merged (q := fun p => q p.1) (forward_metered (g := g) (l := l))
    (fun p (_ : p ∈ u.pending.toList) hp => forward_keeps (fun e he hs => by rw [← hq e he, hs]) hp)
    (fun p _ hp => forward_keeps (fun e he hs => by rw [← hq e he, hs]) hp) h.clear
  rw [← hs, ← ht] at this
  exact this

theorem rounds_merged (k : Nat) (h : Joint (q · = true) (q · = false) s t u) :
    Merged (q · = true) (q · = false) (fun b => rounds g l k (s.on b))
      (fun b => rounds g l k (t.on b)) fun b => rounds g l k (u.on b) := by
  induction k generalizing s t u with
  | zero => exact .done (Course.ok s) (Course.ok t) (Course.ok u) h
  | succ k ih =>
    simp only [rounds_succ]
    exact (round_merged hq h).bind fun s t u h => ih h

theorem launch_merged (members : List NodeId) :
    Merged (q · = true) (q · = false) (launch g l (members.filter q))
      (launch g l (members.filter (!q ·))) (launch g l members) := by
  have hblank : Joint (q · = true) (q · = false) blank blank blank :=
    .blank fun v htrue hfalse => by simp [htrue] at hfalse
  refine Merged.bind (loop_merged (q := q) plant_metered (fun v _ hv => plant_keeps hv)
    (fun v _ hv => plant_keeps hv) hblank) fun s t u h => ?_
  exact loop_merged sendReturn_metered
    (fun v _ hv => sendReturn_keeps (fun e he hs => by rw [← hq e he, hs]) hv)
    (fun v _ hv => sendReturn_keeps (fun e he hs => by rw [← hq e he, hs]) hv) h

theorem run_merged (members : List NodeId) (k : Nat) :
    Merged (q · = true) (q · = false)
      (fun b => launch g l (members.filter q) b >>= rounds g l k)
      (fun b => launch g l (members.filter (!q ·)) b >>= rounds g l k)
      fun b => launch g l members b >>= rounds g l k :=
  (launch_merged hq members).bind fun _ _ _ h => rounds_merged hq k h

/-- A run that finishes over all nodes has finished over both parts. -/
theorem runCourse_split (h : RunCourse g l members n (.ok u)) :
    ∃ n₁ n₂ s t, RunCourse g l (members.filter q) n₁ (.ok s) ∧
      RunCourse g l (members.filter (!q ·)) n₂ (.ok t) ∧ n = n₁ + n₂ ∧
      Joint (q · = true) (q · = false) s t u := by
  obtain ⟨hdone, k, hz⟩ := h
  cases run_merged (l := l) hq members k with
  | broken _ hbreaks => exact absurd hbreaks hz.not_breaks
  | @done n₁ n₂ s t u' hx hy hz' hj =>
    obtain ⟨hsum, b, hu⟩ := hz.unique hz'
    cases hu
    have hj : Joint (q · = true) (q · = false) s t u := Joint.of_on s.budget _ hj
    have hempty := SortedSet.isEmpty_iff.1 (hdone u rfl)
    have hpending : s.pending.isEmpty = true ∧ t.pending.isEmpty = true := by
      constructor <;>
        refine SortedSet.isEmpty_iff.2 (List.eq_nil_iff_forall_not_mem.2 fun p hp => ?_)
      · exact absurd ((hj.pending p).2 (.inl hp)) (by simp [hempty])
      · exact absurd ((hj.pending p).2 (.inr hp)) (by simp [hempty])
    refine ⟨n₁, n₂, s, t, ⟨fun s' hs' => ?_, k, hx⟩, ⟨fun t' ht' => ?_, k, hy⟩, hsum, hj⟩
    · cases hs'
      exact hpending.1
    · cases ht'
      exact hpending.2

/-- Runs that finish over both parts make one that finishes over all nodes. -/
theorem runCourse_join {n₁ n₂ : Nat} (hs : RunCourse g l (members.filter q) n₁ (.ok s))
    (ht : RunCourse g l (members.filter (!q ·)) n₂ (.ok t)) :
    ∃ u, RunCourse g l members (n₁ + n₂) (.ok u) ∧ Joint (q · = true) (q · = false) s t u := by
  obtain ⟨hsdone, k₁, hs⟩ := hs
  obtain ⟨htdone, k₂, ht⟩ := ht
  have hs := course_of_le (Nat.le_max_left k₁ k₂) hsdone hs
  have ht := course_of_le (Nat.le_max_right k₁ k₂) htdone ht
  cases run_merged (l := l) hq members (max k₁ k₂) with
  | broken hbreaks _ => exact (hbreaks.elim hs.not_breaks ht.not_breaks).elim
  | @done m₁ m₂ s' t' u hx hy hz hj =>
    obtain ⟨rfl, b, hs'⟩ := hs.unique hx
    obtain ⟨rfl, b', ht'⟩ := ht.unique hy
    cases hs'
    cases ht'
    have hj : Joint (q · = true) (q · = false) s t u :=
      (Joint.of_on _ u.budget (Joint.of_on _ u.budget hj).symm).symm
    refine ⟨u, ⟨fun u' hu' => ?_, max k₁ k₂, hz⟩, hj⟩
    cases hu'
    refine SortedSet.isEmpty_iff.2 (List.eq_nil_iff_forall_not_mem.2 fun p hp => ?_)
    have hsempty := SortedSet.isEmpty_iff.1 (hsdone s rfl)
    have htempty := SortedSet.isEmpty_iff.1 (htdone t rfl)
    rcases (hj.pending p).1 hp with hp | hp
    · rw [hsempty] at hp
      cases hp
    · rw [htempty] at hp
      cases hp

end Parts

end Spread

end Enclave
