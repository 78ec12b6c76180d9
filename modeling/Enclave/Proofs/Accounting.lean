import Enclave.Proofs.Bounds
import Enclave.Proofs.Representation
import Enclave.Proofs.Stages
import Mathlib.Data.List.Nodup

/-!
# Enclave.Proofs.Accounting

What can be said of a run between any two of its arrivals.

A run owes deliveries: those it is about to make, those of the tasks to come, and those of the facts
that are pending. `Stage.crossings` lists what it has delivered together with what it owes, and
`Stage.Accounted` says how often an edge is listed with a level: once if the node it leaves holds
the level, and along an edge on which a function sends its one return level instead as often as the
function is a member. No step changes this, so between rounds, when only pending facts owe
anything, a fact has crossed every edge once or none at all.

* `Reaches.accounted`: the account holds at every stage.
* `Arrives`: the arrival of a level without the bound on the joins that it raises, by how deep those
  are nested; `Arrives.le_one` says that this is one at most.
* `stages_orderly`: all that holds between two arrivals.
-/

namespace Enclave

attribute [local instance] lexOrd

namespace Graph

variable {g : Graph} {u v : NodeId} {e : Edge × EdgeId} {a b : Level}

theorem eq_of_mem_successors {e' : Edge × EdgeId} (he : e ∈ g.successors v)
    (he' : e' ∈ g.successors u) (h : e'.2 = e.2) : e' = e ∧ u = v := by
  obtain ⟨hget, rfl⟩ := mem_successors.1 he
  obtain ⟨hget', rfl⟩ := mem_successors.1 he'
  rw [h, hget] at hget'
  have hedge := Option.some.inj hget'
  exact ⟨Prod.ext hedge.symm h, by rw [hedge]⟩

theorem nodup_numbers (g : Graph) (u : NodeId) : ((g.successors u).map (·.2)).Nodup :=
  ((sortOn_perm _ _).map _).nodup_iff.2 ((pairwise_numberedEdges g _).imp Nat.ne_of_lt)

theorem count_numbers {keep : Edge × EdgeId → Bool} (he : e ∈ g.successors v) :
    (((g.successors u).filter keep).map fun e' => (e'.2, b)).count (e.2, a) =
      if u = v ∧ b = a ∧ keep e = true then 1 else 0 := by
  have hnumbers : (((g.successors u).filter keep).map (·.2)).Nodup :=
    (List.filter_sublist.map _).nodup (g.nodup_numbers u)
  have hnodup : (((g.successors u).filter keep).map fun e' => (e'.2, b)).Nodup := by
    refine .of_map Prod.fst ?_
    rwa [List.map_map]
  rw [hnodup.count]
  congr 1
  rw [List.mem_map, eq_iff_iff]
  constructor
  · rintro ⟨e', he', heq⟩
    obtain ⟨hmem, hkeep⟩ := List.mem_filter.1 he'
    obtain ⟨hnumber, rfl⟩ := Prod.mk.inj heq
    obtain ⟨rfl, rfl⟩ := eq_of_mem_successors he hmem hnumber
    exact ⟨rfl, rfl, hkeep⟩
  · rintro ⟨rfl, rfl, hkeep⟩
    exact ⟨e, List.mem_filter.2 ⟨he, hkeep⟩, rfl⟩

end Graph

namespace Spread

open NodeFacts Enclave.Flow Stage

variable {g : Graph} {l : Lattice} {members : List NodeId} {s s' : Flow} {u v : NodeId}
  {a b : Level} {o : Origin} {e : Edge × EdgeId} {budget : Budget} {st st' : Stage}
  {ts : List Task} {log : List (EdgeId × Level)}

/-! ## What a run owes -/

/-- A function with one return level passes no level of its own on along the edge. -/
def withholds (g : Graph) (v : NodeId) (e : Edge × EdgeId) : Bool :=
  (g.nodes[v]?.bind (·.singleReturn?)).isSome && e.1.kinds.isPureData

theorem onwardEdges_eq : onwardEdges g v = (g.successors v).filter (!withholds g v ·) := by
  rw [onwardEdges]
  split
  · rename_i h
    simp [withholds, h]
  · rename_i h
    simp [withholds, h]

def Delivery.crossing (d : Delivery) : EdgeId × Level := (d.edge.2, d.level)

def Task.crossings (g : Graph) : Task → List (EdgeId × Level)
  | .plant _ => []
  | .sendReturn v =>
    match g.nodes[v]?.bind (·.singleReturn?) with
    | none => []
    | some a => (returnEdges g v).map fun e => (e.2, a)
  | .forward p => (onwardEdges g p.1).map fun e => (e.2, p.2)
  | .round => []

def onward (g : Graph) (ps : List (NodeId × Level)) : List (EdgeId × Level) :=
  (ps.map Task.forward).flatMap (Task.crossings g)

/-- The deliveries made and those that are owed. -/
def Stage.crossings (g : Graph) (st : Stage) : List (EdgeId × Level) :=
  st.log ++ st.sending.map Delivery.crossing ++ st.tasks.flatMap (Task.crossings g) ++
    onward g st.flow.pending.toList

/-- How often a level is to cross an edge that leaves a node. -/
def share (g : Graph) (members : List NodeId) (s : Flow) (v : NodeId) (e : Edge × EdgeId)
    (a : Level) : Nat :=
  if withholds g v e then
    if g.nodes[v]?.bind (·.singleReturn?) = some a then members.count v else 0
  else if (s.factsOf v).levels.contains a then 1 else 0

/-- Every level is delivered, or owed, as often as it is to cross an edge. -/
def Stage.Accounted (g : Graph) (members : List NodeId) (st : Stage) : Prop :=
  ∀ v e a, e ∈ g.successors v → (st.crossings g).count (e.2, a) = share g members st.flow v e a

theorem count_forward (he : e ∈ g.successors v) (p : NodeId × Level) :
    (Task.crossings g (.forward p)).count (e.2, a) =
      if p = (v, a) ∧ withholds g v e = false then 1 else 0 := by
  rw [Task.crossings, onwardEdges_eq, Graph.count_numbers he]
  refine if_congr ?_ rfl rfl
  obtain ⟨u, b⟩ := p
  rw [Prod.mk.injEq, and_assoc, Bool.not_eq_true']
  constructor
  · rintro ⟨rfl, hb, hw⟩
    exact ⟨rfl, hb, hw⟩
  · rintro ⟨rfl, hb, hw⟩
    exact ⟨rfl, hb, hw⟩

theorem count_onward (he : e ∈ g.successors v) {ps : List (NodeId × Level)} (hps : ps.Nodup) :
    (onward g ps).count (e.2, a) = if (v, a) ∈ ps ∧ withholds g v e = false then 1 else 0 := by
  induction ps with
  | nil => simp [onward]
  | cons p ps ih =>
    obtain ⟨hp, hps⟩ := List.nodup_cons.1 hps
    have hsplit : onward g (p :: ps) = Task.crossings g (.forward p) ++ onward g ps := rfl
    rw [hsplit, List.count_append, count_forward he, ih hps]
    by_cases h : p = (v, a)
    · subst h
      simp [hp]
    · simp [h, Ne.symm h]

theorem count_sendReturn (he : e ∈ g.successors v) (u : NodeId) :
    (Task.crossings g (.sendReturn u)).count (e.2, a) =
      if u = v ∧ withholds g v e = true ∧ g.nodes[v]?.bind (·.singleReturn?) = some a then 1
      else 0 := by
  rw [Task.crossings]
  cases hret : g.nodes[u]?.bind (·.singleReturn?) with
  | none =>
    rw [if_neg]
    · rfl
    · rintro ⟨rfl, -, ha⟩
      rw [hret] at ha
      cases ha
  | some b =>
    dsimp only
    rw [returnEdges, Graph.count_numbers he]
    refine if_congr ?_ rfl rfl
    constructor
    · rintro ⟨rfl, rfl, hpure⟩
      exact ⟨rfl, by simp [withholds, hret, hpure], hret⟩
    · rintro ⟨rfl, hw, ha⟩
      rw [hret] at ha
      exact ⟨rfl, Option.some.inj ha, (Bool.and_eq_true_iff.1 hw).2⟩

theorem count_sendReturns (he : e ∈ g.successors v) (us : List NodeId) :
    ((us.map Task.sendReturn).flatMap (Task.crossings g)).count (e.2, a) =
      if withholds g v e = true ∧ g.nodes[v]?.bind (·.singleReturn?) = some a then us.count v
      else 0 := by
  induction us with
  | nil => simp
  | cons u us ih =>
    rw [List.map_cons, List.flatMap_cons, List.count_append, ih, count_sendReturn he]
    by_cases hu : u = v
    · subst hu
      by_cases hsends : withholds g u e = true ∧ g.nodes[u]?.bind (·.singleReturn?) = some a
      · simp [hsends, Nat.add_comm]
      · simp [hsends]
    · simp [hu]

theorem accounted_start : (start members budget).Accounted g members := by
  intro v e a he
  have hplants : (members.map Task.plant).flatMap (Task.crossings g) = [] := by
    simp [Task.crossings]
  have hround : [Task.round].flatMap (Task.crossings g) = [] := rfl
  have hall : (start members budget).crossings g =
      (members.map Task.sendReturn).flatMap (Task.crossings g) := by
    show [] ++ (members.map Task.plant ++ (members.map Task.sendReturn ++ [Task.round])).flatMap
      (Task.crossings g) ++ [] = _
    rw [List.flatMap_append, List.flatMap_append, hplants, hround, List.append_nil,
      List.append_nil, List.nil_append, List.nil_append]
  have hblank : ((start members budget).flow.factsOf v).levels.contains a = false := rfl
  rw [hall, count_sendReturns he, share, hblank]
  cases withholds g v e <;> simp

/-- A fact that becomes known is owed at once, and a fact that is known stays as it was. -/
theorem Advances.accounted {n : Nat} (hadv : Advances g l members s s') (he : e ∈ g.successors v)
    (h : n + (onward g s.pending.toList).count (e.2, a) = share g members s v e a) :
    n + (onward g s'.pending.toList).count (e.2, a) = share g members s' v e a := by
  have hpending := hadv.pending (v, a)
  rw [count_onward he (SortedSet.nodup_toList _)] at h ⊢
  rw [share] at h ⊢
  cases hw : withholds g v e with
  | true => simpa [hw] using h
  | false =>
    simp only [hw, Bool.false_eq_true, if_false, and_true] at h ⊢
    by_cases hold : s.Holds v a
    · have hsame : (v, a) ∈ s'.pending.toList ↔ (v, a) ∈ s.pending.toList := by
        rw [hpending]
        simp [hold]
      rw [if_pos (contains_levels_iff.2 hold)] at h
      rw [if_pos (contains_levels_iff.2 (hadv.holds hold))]
      simpa only [hsame] using h
    · -- nothing is delivered or owed yet, so that all that is owed is what becomes pending now
      rw [if_neg fun hc => hold (contains_levels_iff.1 hc)] at h
      have hnone : (v, a) ∉ s.pending.toList := by
        intro hp
        rw [if_pos hp] at h
        omega
      have hnew : (v, a) ∈ s'.pending.toList ↔ (s'.factsOf v).levels.contains a = true := by
        rw [hpending, contains_levels_iff]
        exact ⟨fun hp => (hp.resolve_left hnone).2, fun hp => .inr ⟨hold, hp⟩⟩
      rw [if_neg hnone] at h
      simp only [hnew]
      omega

theorem Stage.count_crossings (c : EdgeId × Level) : (st.crossings g).count c =
    st.log.count c + (st.sending.map Delivery.crossing).count c +
      (st.tasks.flatMap (Task.crossings g)).count c +
        (onward g st.flow.pending.toList).count c := by
  rw [Stage.crossings, List.count_append, List.count_append, List.count_append]

theorem Stage.count_crossings_deliver {ds : List Delivery} {d : Edge × EdgeId}
    (c : EdgeId × Level) :
    (Stage.crossings g ⟨s, ds, ts, (d.2, b) :: log⟩).count c =
      (Stage.crossings g ⟨s, ⟨b, o, d⟩ :: ds, ts, log⟩).count c := by
  rw [count_crossings, count_crossings]
  simp only [List.map_cons, List.count_cons, Delivery.crossing]
  omega

theorem Stage.crossings_of_task {t : Task} {ds : List Delivery}
    (h : t.crossings g = ds.map Delivery.crossing) :
    Stage.crossings g ⟨s, ds, ts, log⟩ = Stage.crossings g ⟨s, [], t :: ts, log⟩ := by
  simp only [Stage.crossings, List.flatMap_cons, h, List.map_nil, List.append_nil,
    List.append_assoc]

theorem Stage.count_crossings_round (c : EdgeId × Level) :
    (Stage.crossings g ⟨{ s with pending := ∅ }, [],
      s.pending.toList.map .forward ++ .round :: ts, log⟩).count c =
      (Stage.crossings g ⟨s, [], .round :: ts, log⟩).count c := by
  have hmove : (s.pending.toList.map Task.forward ++ Task.round :: ts).flatMap
      (Task.crossings g) = onward g s.pending.toList ++ ts.flatMap (Task.crossings g) := by
    rw [List.flatMap_append]
    rfl
  have hround : (Task.round :: ts).flatMap (Task.crossings g) = ts.flatMap (Task.crossings g) := rfl
  have hempty : onward g (∅ : SortedSet (NodeId × Level)).toList = [] := rfl
  rw [count_crossings, count_crossings, hmove, hround, hempty, List.count_append, List.count_nil]
  dsimp only
  omega

theorem Stage.Accounted.count_unknown {p : NodeId × Level}
    (h : Stage.Accounted g members ⟨s, [], .forward p :: ts, log⟩)
    (hp : (s.factsOf p.1).levels.get? p.2 = none) (he : e ∈ g.successors v) :
    (Task.crossings g (.forward p)).count (e.2, a) = 0 := by
  have hcount := h v e a he
  rw [count_crossings, List.flatMap_cons, List.count_append] at hcount
  rw [count_forward he] at hcount ⊢
  refine if_neg ?_
  rintro ⟨rfl, hw⟩
  have hnot : ¬ (s.factsOf v).levels.contains a = true :=
    fun hc => not_holds_iff.2 hp (contains_levels_iff.1 hc)
  rw [if_pos ⟨rfl, hw⟩, share, hw, if_neg Bool.false_ne_true, if_neg hnot] at hcount
  omega

theorem Stage.Step.accounted (hl : l.Lawful) (hg : g.Over l) (h : Step g l st st')
    (hs : st.Sound g l members) (hacc : st.Accounted g members) : st'.Accounted g members := by
  intro v e a he
  have hold := hacc v e a he
  -- a delivery and a seed may make facts known; all other steps move what is owed
  cases h with
  | @deliver s s' b o d ds ts log h =>
    rw [← count_crossings_deliver, count_crossings] at hold
    rw [count_crossings]
    exact (deliver_advances hl hg hs.flow hs.sending.head h).1.accounted he hold
  | @plant s s' u ts log h =>
    rw [count_crossings] at hold ⊢
    exact (plant_advances hl hg hs.flow (hs.plant u List.mem_cons_self) h).accounted he hold
  | @sendReturn s u b ts log h =>
    rw [crossings_of_task (t := .sendReturn u)]
    · exact hold
    · rw [Task.crossings, h, List.map_map]
      rfl
  | @noReturn s u ts log h =>
    rw [crossings_of_task (t := .sendReturn u)]
    · exact hold
    · rw [Task.crossings, h]
      rfl
  | @forward s p o ts log h =>
    rw [crossings_of_task (t := .forward p)]
    · exact hold
    · rw [Task.crossings, List.map_map]
      rfl
  | @unknown s p ts log h =>
    have hnone := hacc.count_unknown h he (a := a)
    rw [count_crossings, List.flatMap_cons, List.count_append, hnone, Nat.zero_add] at hold
    rw [count_crossings]
    exact hold
  | @round s ts log h =>
    rw [count_crossings_round]
    exact hold
  | settled h =>
    rw [crossings_of_task (t := .round) rfl]
    exact hold

theorem Stage.Reaches.accounted (hl : l.Lawful) (hg : g.Over l)
    (h : Reaches g l (start members budget) st) : st.Accounted g members := by
  induction h with
  | refl => exact accounted_start
  | tail hreach hstep ih => exact hstep.accounted hl hg (Reaches.sound hl hg hreach) ih

/-- One round is over and the next has not begun. -/
def Stage.Boundary (st : Stage) : Prop := st.sending = [] ∧ (st.tasks = [.round] ∨ st.tasks = [])

theorem Stage.Accounted.between (h : st.Accounted g members) (hb : st.Boundary)
    (he : e ∈ g.successors v) :
    st.log.count (e.2, a) + (if (v, a) ∈ st.flow.pending.toList ∧ withholds g v e = false then 1
      else 0) = share g members st.flow v e a := by
  obtain ⟨hsending, htasks⟩ := hb
  have hnone : st.tasks.flatMap (Task.crossings g) = [] := by
    rcases htasks with htasks | htasks
    · rw [htasks]
      rfl
    · rw [htasks]
      rfl
  rw [← h v e a he, count_crossings, hsending, hnone, count_onward he (SortedSet.nodup_toList _)]
  rfl

/-! ## The depth of an arrival -/

/--
A level arrives at a node, and the joins that this raises arrive there in turn, for as long as there
are any: the number says how deep they are nested.
-/
inductive Arrives (g : Graph) (l : Lattice) (v : NodeId) (kind : ConflictKind) :
    Nat → Flow → Level → Origin → Except Overflow Flow → Prop
  | known {s : Flow} {a : Level} {o known : Origin} :
      (s.factsOf v).levels.get? a = some known →
      Arrives g l v kind 0 s a o (.ok (improve g s v a known o))
  | fails {s : Flow} {a : Level} {o : Origin} {c : Overflow} :
      (s.factsOf v).levels.get? a = none → settle g l s v a o kind = .error c →
      Arrives g l v kind 0 s a o (.error c)
  | settles {s s' : Flow} {a : Level} {o : Origin} :
      (s.factsOf v).levels.get? a = none → settle g l s v a o kind = .ok (s', none) →
      Arrives g l v kind 0 s a o (.ok s')
  | raises {s s' : Flow} {a b : Level} {o : Origin} {n : Nat} {r : Except Overflow Flow} :
      (s.factsOf v).levels.get? a = none → settle g l s v a o kind = .ok (s', some b) →
      Arrives g l v kind n s' b (.start v) r → Arrives g l v kind (n + 1) s a o r

section Depth

variable {kind : ConflictKind} {n : Nat} {r : Except Overflow Flow}

theorem raised_of_settle {raised : Option Level}
    (h : settle g l s v a o kind = .ok (s', raised)) :
    s'.factsOf v = (s.factsOf v).add l a o ∧ (s.factsOf v).raised? l a o = raised := by
  rw [settle_eq] at h
  obtain ⟨ws, -, h⟩ := bind_eq_ok.1 h
  cases h
  exact ⟨factsOf_settled, rfl⟩

theorem not_raised_twice (hl : l.Lawful) {c : Level} {s₁ s₂ : Flow}
    (h : settle g l s v a o kind = .ok (s₁, some b))
    (h' : settle g l s₁ v b (.start v) kind = .ok (s₂, some c)) : False := by
  obtain ⟨hfacts, hraised⟩ := raised_of_settle h
  obtain ⟨-, hraised'⟩ := raised_of_settle h'
  rw [hfacts, raised?_add_raised hl hraised] at hraised'
  cases hraised'

theorem Arrives.le_one (hl : l.Lawful) (h : Arrives g l v kind n s a o r) : n ≤ 1 := by
  cases h with
  | known _ => exact Nat.zero_le 1
  | fails _ _ => exact Nat.zero_le 1
  | settles _ _ => exact Nat.zero_le 1
  | raises _ hset hnext =>
    cases hnext with
    | known _ => exact Nat.le_refl 1
    | fails _ _ => exact Nat.le_refl 1
    | settles _ _ => exact Nat.le_refl 1
    | raises _ hset' _ => exact (not_raised_twice hl hset hset').elim

theorem Arrives.arriveWithin_eq (h : Arrives g l v kind n s a o r) {k : Nat} (hk : n < k) :
    arriveWithin g l v kind k s a o = r := by
  obtain ⟨k, rfl⟩ := Nat.exists_eq_add_one_of_ne_zero (Nat.ne_zero_of_lt hk)
  induction h generalizing k with
  | known h => rw [arriveWithin, h]
  | fails h hset =>
    rw [arriveWithin, h]
    dsimp only
    rw [hset]
    rfl
  | settles h hset =>
    rw [arriveWithin, h]
    dsimp only
    rw [hset]
    rfl
  | raises h hset _ ih =>
    rw [arriveWithin, h]
    dsimp only
    rw [hset]
    have hk := Nat.lt_of_succ_lt_succ hk
    obtain ⟨k, rfl⟩ := Nat.exists_eq_add_one_of_ne_zero (Nat.ne_zero_of_lt hk)
    exact ih k hk

theorem exists_arrives (hl : l.Lawful) (v : NodeId) (kind : ConflictKind) (s : Flow) (a : Level)
    (o : Origin) : ∃ n r, Arrives g l v kind n s a o r := by
  cases hget : (s.factsOf v).levels.get? a with
  | some known => exact ⟨0, _, .known hget⟩
  | none =>
    cases hset : settle g l s v a o kind with
    | error c => exact ⟨0, _, .fails hget hset⟩
    | ok p =>
      obtain ⟨s₁, raised⟩ := p
      cases raised with
      | none => exact ⟨0, _, .settles hget hset⟩
      | some b =>
        cases hget₁ : (s₁.factsOf v).levels.get? b with
        | some known => exact ⟨1, _, .raises hget hset (.known hget₁)⟩
        | none =>
          cases hset₁ : settle g l s₁ v b (.start v) kind with
          | error c => exact ⟨1, _, .raises hget hset (.fails hget₁ hset₁)⟩
          | ok p =>
            obtain ⟨s₂, raised⟩ := p
            cases raised with
            | none => exact ⟨1, _, .raises hget hset (.settles hget₁ hset₁)⟩
            | some c => exact (not_raised_twice hl hset hset₁).elim

end Depth

/-! ## Between two arrivals -/

theorem Reachable.recorded (h : Reachable g l members s) :
    ∀ v f, s.facts.get? v = some f → ∃ a, f.Holds a := by
  induction h with
  | start hf _ =>
    intro v f hv
    rw [hf] at hv
    cases hv
  | book _ hf _ _ ih => rwa [hf]
  | @arrive s s' v a o via _ _ harr ih =>
    intro w f hf
    by_cases hw : w = v
    · subst hw
      have hholds := harr.holds
      rw [Flow.Holds, factsOf, hf] at hholds
      exact ⟨a, hholds⟩
    · rw [harr.elsewhere w hw] at hf
      exact ih w f hf

theorem Stage.Step.conflicted (hl : l.Lawful) (hg : g.Over l) (h : Step g l st st')
    (hs : st.Sound g l members) (hv : (st.flow.factsOf v).state = .conflicted) :
    (st'.flow.factsOf v).state = .conflicted := by
  cases h with
  | deliver h => exact (deliver_advances hl hg hs.flow hs.sending.head h).1.conflicted hv
  | @plant s s' u ts log h =>
    exact (plant_advances hl hg hs.flow (hs.plant u List.mem_cons_self) h).conflicted hv
  | sendReturn _ | noReturn _ | forward _ | unknown _ | round _ | settled _ => exact hv

theorem Stage.Reaches.conflicted (hl : l.Lawful) (hg : g.Over l)
    (hst : Reaches g l (start members budget) st) (h : Reaches g l st st')
    (hv : (st.flow.factsOf v).state = .conflicted) : (st'.flow.factsOf v).state = .conflicted := by
  induction h with
  | refl => exact hv
  | tail hreach hstep ih =>
    exact hstep.conflicted hl hg (Reaches.sound hl hg (Relation.ReflTransGen.trans hst hreach)) ih

/-- What holds of a run between two arrivals. -/
structure Stage.Orderly (g : Graph) (l : Lattice) (spec : LatticeSpec) (members : List NodeId)
    (st : Stage) : Prop where
  /-- A node of which anything is known holds a level, and is at a level or in conflict. -/
  recorded : ∀ v f, st.flow.facts.get? v = some f →
    f.levels.keys ≠ [] ∧ (f.state = .conflicted ∨ ∃ t, f.state = .tentative t)
  /-- The level that a node is at is one it holds, and the least above all it holds. -/
  joined : ∀ v f t, st.flow.facts.get? v = some f → f.state = .tentative t →
    t ∈ f.levels.keys ∧ (∀ a ∈ f.levels.keys, l.dominatedBy a t = true) ∧
      l.IsBound spec f.levels.keys t
  /-- A conflict is never left. -/
  conflicted : ∀ st' v, Reaches g l st st' → (st.flow.factsOf v).state = .conflicted →
    (st'.flow.factsOf v).state = .conflicted
  /-- Between rounds a fact is pending, or was delivered once along every edge. -/
  once : st.Boundary → ∀ v a, st.flow.Holds v a →
    ((v, a) ∈ st.flow.pending.toList ∧
      ∀ e ∈ g.successors v, withholds g v e = false → st.log.count (e.2, a) = 0) ∨
    ((v, a) ∉ st.flow.pending.toList ∧
      ∀ e ∈ g.successors v, withholds g v e = false → st.log.count (e.2, a) = 1)
  /-- The other edges have the one return level for each time that the node is a member. -/
  withheld : st.Boundary → ∀ v a, ∀ e ∈ g.successors v, withholds g v e = true →
    st.log.count (e.2, a) =
      if g.nodes[v]?.bind (·.singleReturn?) = some a then members.count v else 0

theorem mem_keys_iff {f : NodeFacts} : a ∈ f.levels.keys ↔ f.Holds a := by
  rw [SortedMap.mem_keys, contains_levels_iff]

theorem Stage.Reaches.orderly {names : List String} {spec : LatticeSpec}
    (hl : Lattice.build names spec = .ok l) (hg : g.Over l)
    (h : Reaches g l (start members budget) st) : st.Orderly g l spec members := by
  have hlawful := Lattice.build_lawful hl
  have hreach := (Reaches.sound hlawful hg h).flow
  have hacc := Reaches.accounted hlawful hg h
  have hfacts : ∀ v f, st.flow.facts.get? v = some f → st.flow.factsOf v = f := by
    intro v f hf
    rw [factsOf, hf, Option.getD_some]
  refine ⟨fun v f hf => ?_, fun v f t hf ht => ?_,
    fun st' v hst hv => Reaches.conflicted hlawful hg h hst hv, fun hb v a ha => ?_,
    fun hb v a e he hw => ?_⟩
  · obtain ⟨a, ha⟩ := hreach.recorded v f hf
    refine ⟨List.ne_nil_of_mem (mem_keys_iff.2 ha), ?_⟩
    rcases (hfacts v f hf ▸ hreach.steady hlawful hg v).cases with ⟨-, hnone⟩ | hs | ⟨t, hs, -⟩
    · exact absurd ha (hnone a)
    · exact .inl hs
    · exact .inr ⟨t, hs⟩
  · obtain ⟨hheld, habove⟩ := (hfacts v f hf ▸ hreach.steady hlawful hg v).joined t ht
    have hlt : t < l.size := by
      refine hreach.lt hlawful hg (v := v) ?_
      rwa [Flow.Holds, hfacts v f hf]
    have habove : ∀ a ∈ f.levels.keys, l.dominatedBy a t = true :=
      fun a ha => habove a (mem_keys_iff.1 ha)
    have hmem := mem_keys_iff.2 hheld
    exact ⟨hmem, habove, hlt, fun a ha => (Lattice.below_iff hl).2 (habove a ha),
      fun u _ hu => hu t hmem⟩
  · have hcount : ∀ e ∈ g.successors v, withholds g v e = false →
        st.log.count (e.2, a) + (if (v, a) ∈ st.flow.pending.toList then 1 else 0) = 1 := by
      intro e he hw
      have hbetween := hacc.between hb (a := a) he
      rw [share, hw, if_neg Bool.false_ne_true, if_pos (contains_levels_iff.2 ha)] at hbetween
      simpa only [and_true] using hbetween
    by_cases hp : (v, a) ∈ st.flow.pending.toList
    · refine .inl ⟨hp, fun e he hw => ?_⟩
      have := hcount e he hw
      rw [if_pos hp] at this
      omega
    · refine .inr ⟨hp, fun e he hw => ?_⟩
      have := hcount e he hw
      rwa [if_neg hp] at this
  · have hbetween := hacc.between hb (a := a) he
    rw [share, hw, if_pos rfl] at hbetween
    simpa using hbetween

/--
A run goes through stages, and all of them are orderly: every node that is recorded is at the least
level above those it holds, or in conflict for good, and between rounds each fact is pending or has
been delivered once along every edge that its node does not withhold it from. An arrival raises one
join at most, from whatever flow.
-/
theorem Stage.stages_orderly {names : List String} {spec : LatticeSpec}
    (hl : Lattice.build names spec = .ok l) (hg : g.Over l) (members : List NodeId)
    (budget : Budget) :
    (budget.used ≤ budget.cap →
      Ends (fun r => ∃ st, Reaches g l (start members budget) st ∧ st.Done ∧
          r = (st.flow.solution, st.flow.budget))
        (fun err => ∃ st, Reaches g l (start members budget) st ∧ st.Stops g l err)
        (run g l members budget)) ∧
    (∀ st, Reaches g l (start members budget) st → st.Orderly g l spec members) ∧
    ∀ (s : Flow) (v : NodeId) (a : Level) (o : Origin) (via : Option Kinds), a < l.size →
      (∃ n r, Arrives g l v (kindOf via) n s a o r ∧
        arrive g l s v a o via = r.mapError .overflow) ∧
      ∀ n r, Arrives g l v (kindOf via) n s a o r → n ≤ 1 := by
  have hlawful := Lattice.build_lawful hl
  refine ⟨run_stages g l members, fun st h => h.orderly hl hg, fun s v a o via ha =>
    ⟨?_, fun n r h => h.le_one hlawful⟩⟩
  obtain ⟨n, r, h⟩ := exists_arrives (g := g) hlawful v (kindOf via) s a o
  have hn := h.le_one hlawful
  have hpos : 0 < l.size := Nat.zero_lt_of_lt ha
  refine ⟨n, r, h, ?_⟩
  rw [arrive]
  exact congrArg _ (h.arriveWithin_eq (by omega))

/-- Two levels are joined, their join meets one it excludes, and a function sends one level only. -/
def brewing : Program where
  labels := {
    functions := .ofList [
      ("sensor", { level := some "red" }),
      ("store", { level := some "blue" }),
      ("lamp", { level := some "green" }),
      ("filter", { taint := some {
        returns := some ["blue"], arguments := some ["green"], code := some ["red"] } })] }
  ir := {
    defUse := [⟨"sensor", "mixer", none⟩, ⟨"store", "mixer", none⟩, ⟨"mixer", "sink", none⟩,
      ⟨"lamp", "sink", none⟩, ⟨"sensor", "filter", none⟩, ⟨"filter", "buffer", none⟩] }

def brewingLevels : LatticeSpec where
  levels := ["violet"]
  order := [("red", "violet"), ("blue", "violet")]
  exclusive := [("violet", "green")]

theorem Stage.stages_orderly_brewing :
    ∃ (names : List String) (l : Lattice) (g : Graph) (st : Stage),
    Lattice.build names brewingLevels = .ok l ∧ g.Over l ∧
    Reaches g l (start (List.range g.nodes.size) ⟨100, 0⟩) st ∧ st.Boundary ∧
    (∃ v f t, st.flow.facts.get? v = some f ∧ f.levels.size = 3 ∧ f.state = .tentative t ∧
      l.IsBound brewingLevels f.levels.keys t) ∧
    (∃ v, (st.flow.factsOf v).state = .conflicted) ∧
    (∃ v e a, e ∈ g.successors v ∧ withholds g v e = true ∧ st.log.count (e.2, a) = 1) ∧
    st.Orderly g l brewingLevels (List.range g.nodes.size) := by
  have hfits : (⟨100, 0⟩ : Budget).used ≤ (⟨100, 0⟩ : Budget).cap := by decide
  have hrun : (Analysis.prepare { lattice := brewingLevels } brewing).toOption.any (fun r =>
      r.toOption.any fun (p : Prepared) =>
        (run p.graph p.lattice (List.range p.graph.nodes.size) ⟨100, 0⟩).toOption.any fun q =>
          decide ((∃ v ∈ List.range p.graph.nodes.size, ((q.1.facts.get? v).any fun f =>
              f.levels.size == 3 && f.state != .conflicted) = true) ∧
            (∃ v ∈ List.range p.graph.nodes.size, q.1.state v = .conflicted) ∧
            ∃ v ∈ List.range p.graph.nodes.size, ∃ e ∈ p.graph.successors v,
              withholds p.graph v e = true ∧
                (List.range p.graph.nodes.size).count v = 1)) = true := by
    decide +kernel
  obtain ⟨p, st, hp, hreach, ⟨hsending, htasks⟩, ⟨v, -, hv⟩, ⟨w, -, hw⟩, u, -, e, he, hwith,
    hcount⟩ := exists_done_of_any hfits hrun
  have hlabels := (Analysis.valid_of_prepare hp).labels
  have hlattice := (Analysis.prepare_eq_ok hp).1
  have horderly := (stages_orderly hlattice hlabels _ _).2.1 st hreach
  have hboundary : st.Boundary := ⟨hsending, .inr htasks⟩
  refine ⟨_, p.lattice, p.graph, st, hlattice, hlabels, hreach, hboundary, ?_, ⟨w, ?_⟩, ?_,
    horderly⟩
  · obtain ⟨f, hf, hcheck⟩ := (Option.any_eq_true _ _).1 hv
    rw [Bool.and_eq_true, beq_iff_eq, bne_iff_ne] at hcheck
    obtain ⟨t, ht⟩ := (horderly.recorded v f hf).2.resolve_left hcheck.2
    exact ⟨v, f, t, hf, hcheck.1, ht, (horderly.joined v f t hf ht).2.2⟩
  · rwa [Solution.state_eq] at hw
  · obtain ⟨a, ha⟩ := Option.isSome_iff_exists.1 (Bool.and_eq_true_iff.1 hwith).1
    refine ⟨u, e, a, he, hwith, ?_⟩
    rw [horderly.withheld hboundary u a e he hwith, if_pos ha, hcount]

end Spread

end Enclave
