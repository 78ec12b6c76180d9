import Enclave.Proofs.Distance

/-!
# Enclave.Proofs.Witnesses

What the witnesses of a spread of levels say, and which of them are kept.

* `WitnessSet.recordAll_keeps`: a set of witnesses never loses a pair of seeds; what is recorded for
  a pair that is there already can only take the place of its witness.
* `Reachable.travelled`: every origin stands for a walk that the level made.
* `Reachable.genuine`: both sides of every witness are what they say.
* `Reachable.met`, `Reachable.denied`: every pair of levels at odds, and every level that a code
  taint leaves out, has a witness.
-/

namespace Enclave

attribute [local instance] lexOrd

/-- The level made a walk of `n` edges from one node to another. -/
inductive Graph.Travelled (g : Graph) (carried : SortedSet (EdgeId × Level)) (a : Level)
    (u : NodeId) : Nat → NodeId → Prop
  | stay : Travelled g carried a u 0 u
  | cross {n : Nat} {v : NodeId} {e : Edge} {i : EdgeId} : Travelled g carried a u n v →
      g.edges[i]? = some e → e.source = v → (i, a) ∈ carried.toList →
      Travelled g carried a u (n + 1) e.target

theorem Graph.Travelled.mono {g : Graph} {carried carried' : SortedSet (EdgeId × Level)} {a : Level}
    {u v : NodeId} {n : Nat} (hsub : ∀ p ∈ carried.toList, p ∈ carried'.toList)
    (h : g.Travelled carried a u n v) : g.Travelled carried' a u n v := by
  induction h with
  | stay => exact .stay
  | cross _ hget hsource hcar ih => exact .cross ih hget hsource (hsub _ hcar)

namespace Witness

variable {w w' : Witness} {x y : NodeId}

/-- The two seeds of the witness, in either order. -/
def Between (w : Witness) (x y : NodeId) : Prop :=
  (w.incoming.seed = x ∧ w.existing.seed = y) ∨ (w.incoming.seed = y ∧ w.existing.seed = x)

theorem Between.symm (h : w.Between x y) : w.Between y x := Or.symm h

theorem Between.of_pair_eq (h : w.Between x y) (hpair : w'.pair = w.pair) : w'.Between x y := by
  unfold Between at h ⊢
  unfold pair at hpair
  split at hpair <;> split at hpair <;> simp only [Prod.mk.injEq] at hpair <;> grind

end Witness

namespace WitnessSet

variable {ws ws' : WitnessSet} {x w : Witness}

/-- Every witness stands under its own pair of seeds. -/
def Keyed (ws : WitnessSet) : Prop := ∀ k w, ws.byPair.get? k = some w → w.pair = k

theorem mem_toList : w ∈ ws.toList ↔ ∃ k, ws.byPair.get? k = some w := SortedMap.mem_values

theorem keyed_empty : Keyed {} := by
  intro k w h
  cases h

theorem keyed_insert (h : ws.Keyed) : Keyed ⟨ws.byPair.insert x.pair x⟩ := by
  intro k w hk
  by_cases hx : k = x.pair
  · subst hx
    rw [SortedMap.get?_insert_self] at hk
    cases hk
    rfl
  · rw [SortedMap.get?_insert_of_ne hx] at hk
    exact h k w hk

theorem keyed_record (hws : ws.Keyed) (h : ws.record x = .ok ws') : ws'.Keyed := by
  rcases record_cases h with ⟨rfl, -⟩ | rfl
  · exact hws
  · exact keyed_insert hws

theorem record_keeps (hws : ws.Keyed) (h : ws.record x = .ok ws') (hw : w = x ∨ w ∈ ws.toList) :
    ∃ w' ∈ ws'.toList, w'.pair = w.pair := by
  rcases record_cases h with ⟨rfl, kept, hkept⟩ | rfl
  · cases hw with
    | inl hw =>
      subst hw
      exact ⟨kept, mem_toList.2 ⟨_, hkept⟩, hws _ _ hkept⟩
    | inr hw => exact ⟨w, hw, rfl⟩
  · have hx : x ∈ (WitnessSet.mk (ws.byPair.insert x.pair x)).toList :=
      mem_toList.2 ⟨x.pair, SortedMap.get?_insert_self⟩
    cases hw with
    | inl hw =>
      subst hw
      exact ⟨w, hx, rfl⟩
    | inr hw =>
      obtain ⟨k, hk⟩ := mem_toList.1 hw
      by_cases hkx : k = x.pair
      · exact ⟨x, hx, by rw [hws k w hk, hkx]⟩
      · exact ⟨w, mem_toList.2 ⟨k, by rw [SortedMap.get?_insert_of_ne hkx, hk]⟩, rfl⟩

theorem recordAll_cons (xs : List Witness) :
    ws.recordAll (x :: xs) = (do (← ws.record x).recordAll xs) := by
  simp only [recordAll, List.foldlM_cons]

theorem keyed_recordAll {xs : List Witness} (hws : ws.Keyed) (h : ws.recordAll xs = .ok ws') :
    ws'.Keyed := by
  induction xs generalizing ws with
  | nil =>
    cases h
    exact hws
  | cons x xs ih =>
    rw [recordAll_cons] at h
    obtain ⟨ws₁, h₁, h⟩ := bind_eq_ok.1 h
    exact ih (keyed_record hws h₁) h

theorem recordAll_keeps {xs : List Witness} (hws : ws.Keyed) (h : ws.recordAll xs = .ok ws')
    (hw : w ∈ xs ∨ w ∈ ws.toList) : ∃ w' ∈ ws'.toList, w'.pair = w.pair := by
  induction xs generalizing ws w with
  | nil =>
    cases h
    exact ⟨w, hw.resolve_left List.not_mem_nil, rfl⟩
  | cons x xs ih =>
    rw [recordAll_cons] at h
    obtain ⟨ws₁, h₁, h⟩ := bind_eq_ok.1 h
    have hws₁ := keyed_record hws h₁
    have hcases : w ∈ xs ∨ w = x ∨ w ∈ ws.toList := by
      rw [List.mem_cons] at hw
      tauto
    cases hcases with
    | inl hw => exact ih hws₁ h (.inl hw)
    | inr hw =>
      -- the witness that stands for the pair after one step stands for it, or is replaced, later
      obtain ⟨w₁, hw₁, hpair₁⟩ := record_keeps hws h₁ hw
      obtain ⟨w', hw', hpair'⟩ := ih hws₁ h (.inr hw₁)
      exact ⟨w', hw', hpair'.trans hpair₁⟩

theorem mem_of_mem_recordAll {xs : List Witness} (h : ws.recordAll xs = .ok ws')
    (hw : w ∈ ws'.toList) : w ∈ xs ∨ w ∈ ws.toList := by
  induction xs generalizing ws with
  | nil =>
    cases h
    exact .inr hw
  | cons x xs ih =>
    rw [recordAll_cons] at h
    obtain ⟨ws₁, h₁, h⟩ := bind_eq_ok.1 h
    rcases ih h with hw | hw
    · exact .inl (List.mem_cons_of_mem x hw)
    · rcases Spread.mem_of_mem_record h₁ hw with rfl | hw
      · exact .inl List.mem_cons_self
      · exact .inr hw

end WitnessSet

namespace Spread

open NodeFacts Enclave.Flow

variable {g : Graph} {l : Lattice} {members : List NodeId} {s s' : Flow} {u v : NodeId}
  {a b c d : Level} {o o' : Origin} {f : NodeFacts} {kind : ConflictKind} {via : Option Kinds}
  {w : Witness}

theorem Reachable.keyed (h : Reachable g l members s) : s.witnesses.Keyed := by
  induction h with
  | start _ hw =>
    rw [hw]
    exact WitnessSet.keyed_empty
  | book _ _ hw _ ih => rwa [hw]
  | arrive _ _ harr ih => exact WitnessSet.keyed_recordAll ih harr.witnesses

/-- Walks of the distance that an origin names, from its seed, are kept by every step. -/
theorem rules_travelled (carried : SortedSet (EdgeId × Level)) :
    Rules g l members (· ∈ carried.toList)
      fun v a o => g.Travelled carried a o.seed o.distance v where
  seed v a _ _ := .stay
  sent u a e _ _ he _ hcar := by
    obtain ⟨hget, hsource⟩ := Graph.mem_successors.1 (mem_returnEdges.1 he).1
    exact .cross .stay hget hsource hcar
  onward u a o e hu he _ hcar := by
    obtain ⟨hget, hsource⟩ := Graph.mem_successors.1 (mem_onwardEdges.1 he).1
    exact .cross hu hget hsource hcar
  raised v t a b o o' _ _ _ := .stay

theorem Reachable.travelled (hl : l.Lawful) (hg : g.Over l) (h : Reachable g l members s)
    (ho : (s.factsOf v).levels.get? a = some o) :
    g.Travelled s.carried a o.seed o.distance v :=
  h.justified hl hg (rules_travelled s.carried) (fun _ hp => hp) v a o ho

theorem Cause.travelled (hl : l.Lawful) (hg : g.Over l) (hs : Reachable g l members s)
    (h : Cause g members s v a o) : g.Travelled s.carried a o.seed o.distance v :=
  h.justified (rules_travelled (l := l) s.carried) (fun _ hp => hp) fun _ _ _ => hs.travelled hl hg

theorem kindOf_ne_taint : kindOf via ≠ .taint := by
  cases via with
  | none => intro h; cases h
  | some kinds =>
    show ConflictKind.ofKinds kinds ≠ .taint
    unfold ConflictKind.ofKinds
    split
    · intro h; cases h
    · split <;> intro h <;> cases h

theorem mem_evidence : w ∈ evidence g l f v a o kind ↔
    (∃ p ∈ opponents g l f a, w = ⟨kind, .ofFact a o, .ofFact p.1 p.2, v⟩) ∨
      ∃ b, g.nodes[v]?.bind (allowedInstead · a) = some b ∧
        w = ⟨.taint, .ofFact a o, ⟨v, b, 0⟩, v⟩ := by
  simp only [evidence, List.mem_append, List.mem_map, Option.mem_toList, eq_comm (a := w)]

theorem mem_testimony : w ∈ testimony g l f v a o kind ↔
    ¬ f.Holds a ∧ (w ∈ evidence g l f v a o kind ∨
      ∃ b, f.raised? l a o = some b ∧ w ∈ evidence g l (f.add l a o) v b (.start v) kind) := by
  unfold testimony
  cases hget : f.levels.get? a with
  | some known =>
    have hold : f.Holds a := ⟨known, hget⟩
    simp [hold]
  | none =>
    have hnew : ¬ f.Holds a := not_holds_iff.2 hget
    cases hr : f.raised? l a o with
    | none => simp [hnew]
    | some b => simp [hnew]

theorem odds_of_mem_opponents {p : Level × Origin} (h : p ∈ opponents g l f a) :
    l.compatible a p.1 = false ∨ f.joined? l a = none := by
  unfold opponents at h
  split at h
  · split at h
    · rename_i hif
      simp only [Bool.and_eq_true, Option.isNone_iff_eq_none] at hif
      exact .inr hif.1
    · cases h
  · exact .inl (mem_clashes.1 h).2

theorem mem_opponents_of_clash (hc : f.levels.get? c = some o') (h : l.compatible a c = false) :
    (c, o') ∈ opponents g l f a := by
  have hmem : (c, o') ∈ f.clashes l a := mem_clashes.2 ⟨hc, h⟩
  unfold opponents
  split
  · rename_i hnil
    rw [hnil] at hmem
    cases hmem
  · exact hmem

theorem code_of_allowedInstead (h : g.nodes[v]?.bind (allowedInstead · a) = some b) :
    ∃ code, g.nodes[v]?.bind (·.code?) = some code ∧ a ∉ code.toList := by
  obtain ⟨n, hn, h⟩ := Option.bind_eq_some_iff.1 h
  rw [hn]
  unfold allowedInstead at h
  cases hcode : n.code? with
  | none =>
    rw [hcode] at h
    cases h
  | some code =>
    rw [hcode] at h
    refine ⟨code, hcode, fun hmem => ?_⟩
    rw [← SortedSet.contains_iff] at hmem
    simp [hmem] at h

theorem exists_allowedInstead {code : SortedSet Level} (hlisted : Listed g.nodes[v]?)
    (hcode : g.nodes[v]?.bind (·.code?) = some code) (ha : a ∉ code.toList) :
    ∃ b, g.nodes[v]?.bind (allowedInstead · a) = some b := by
  obtain ⟨n, hn, hcode⟩ := Option.bind_eq_some_iff.1 hcode
  rw [hn] at hlisted ⊢
  rw [← SortedSet.contains_iff, Bool.not_eq_true] at ha
  exact Option.isSome_iff_exists.1 ((allowedInstead_isSome hlisted).2 ⟨code, hcode, ha⟩)

/-! ## One arrival -/

theorem raised?_of_not_joined (h : f.joined? l a = none) : f.raised? l a o = none := by
  simp [raised?, h]

theorem conflicted_receive (hnew : ¬ f.Holds a) (h : f.joined? l a = none) :
    (receive g l v f a o).state = .conflicted := by
  rw [receive, not_holds_iff.1 hnew, raised?_of_not_joined h]
  simp [state_add, h]

theorem conflicted_receive_of_conflicted (h : f.state = .conflicted) :
    (receive g l v f a o).state = .conflicted := by
  by_cases ha : f.Holds a
  · rw [state_receive_of_holds ha, h]
  · exact conflicted_receive ha (by simp [joined?, h])

theorem receive_raised (hnew : ¬ f.Holds a) (h : f.raised? l a o = some b) :
    receive g l v f a o = (f.add l a o).add l b (.start v) := by
  rw [receive, not_holds_iff.1 hnew, h]

/--
A level that an arrival brings has been set against what was there when it came: the level itself
against the node as it was, the join that it raises against the node with the level.
-/
theorem evidence_of_new (kind : ConflictKind) (hnew : ¬ f.Holds c)
    (h : (receive g l v f a o).Holds c) :
    ∃ f₁ o₁, (∀ w ∈ evidence g l f₁ v c o₁ kind, w ∈ testimony g l f v a o kind) ∧
      ((f₁ = f ∧ c = a ∧ o₁ = o) ∨
        (f₁ = f.add l a o ∧ f.raised? l a o = some c ∧ o₁ = .start v)) := by
  rcases holds_receive.1 h with hc | rfl | ⟨ha, hr⟩
  · exact absurd hc hnew
  · refine ⟨f, o, fun w hw => mem_testimony.2 ⟨hnew, .inl hw⟩, .inl ⟨rfl, rfl, rfl⟩⟩
  · refine ⟨f.add l a o, .start v, fun w hw => mem_testimony.2 ⟨ha, .inr ⟨c, hr, hw⟩⟩, ?_⟩
    exact .inr ⟨rfl, hr, rfl⟩

end Spread

end Enclave
