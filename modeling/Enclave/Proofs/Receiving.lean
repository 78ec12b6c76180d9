import Enclave.Proofs.Order
import Enclave.Propagation.Spread

/-!
# Enclave.Proofs.Receiving

One node and the levels that reach it. `NodeFacts.receive` is everything that the arrival of a level
does to the node, the join that it raises the node to included; `Spread.testimony` is all the
evidence it gives.

* `NodeFacts.Steady`: while the state of a node is a level, that level is one of those that reached
  the node, and dominates all of them.
* `steady_receive`: a level that arrives keeps the node steady. A join that is raised is settled by
  one more arrival and raises nothing further.
* `troubled_receive`: there is evidence exactly when there is something wrong with the node.
-/

namespace Enclave

namespace NodeFacts

variable {g : Graph} {l : Lattice} {f : NodeFacts} {v : NodeId} {a b c : Level} {o : Origin}

def Holds (f : NodeFacts) (a : Level) : Prop := ∃ o, f.levels.get? a = some o

def raised? (l : Lattice) (f : NodeFacts) (a : Level) (o : Origin) : Option Level :=
  (f.joined? l a).filter fun b => !(f.add l a o).levels.contains b

/-- The node once a level has arrived, and the join that it raises. -/
def receive (g : Graph) (l : Lattice) (v : NodeId) (f : NodeFacts) (a : Level) (o : Origin) :
    NodeFacts :=
  match f.levels.get? a with
  | some known =>
    if (o.order g known).isLT then { f with levels := f.levels.insert a o } else f
  | none =>
    match f.raised? l a o with
    | none => f.add l a o
    | some b => (f.add l a o).add l b (.start v)

theorem not_holds_iff : ¬ f.Holds a ↔ f.levels.get? a = none := by
  rw [Holds, ← Option.isSome_iff_exists, Option.not_isSome_iff_eq_none]

theorem not_holds_empty : ¬ ({} : NodeFacts).Holds a := not_holds_iff.2 rfl

theorem get?_add : (f.add l a o).levels.get? b = if b = a then some o else f.levels.get? b := by
  rw [add, SortedMap.get?_insert]
  simp

theorem holds_add : (f.add l a o).Holds b ↔ b = a ∨ f.Holds b := by
  rw [Holds, get?_add]
  split
  · rename_i h
    simp [h]
  · rename_i h
    simp [h, Holds]

theorem state_add : (f.add l a o).state =
    match f.joined? l a with
    | some b => .tentative b
    | none => .conflicted := rfl

theorem contains_levels_iff : f.levels.contains a = true ↔ f.Holds a := SortedMap.contains_iff

theorem raised?_eq_some :
    f.raised? l a o = some b ↔ f.joined? l a = some b ∧ b ≠ a ∧ ¬ f.Holds b := by
  rw [raised?, Option.filter_eq_some_iff]
  have : (!(f.add l a o).levels.contains b) = true ↔ b ≠ a ∧ ¬ f.Holds b := by
    rw [Bool.not_eq_true', ← Bool.not_eq_true, contains_levels_iff, holds_add, not_or]
  rw [this]

theorem raised?_eq_none (h : f.raised? l a o = none) (hb : f.joined? l a = some b) :
    b = a ∨ f.Holds b := by
  by_contra hcon
  rw [not_or] at hcon
  rw [raised?_eq_some.2 ⟨hb, hcon⟩] at h
  cases h

/-- What a node holds after an arrival: what it held, the level and the join raised. -/
theorem holds_receive :
    (receive g l v f a o).Holds c ↔
      f.Holds c ∨ c = a ∨ (¬ f.Holds a ∧ f.raised? l a o = some c) := by
  rw [receive]
  split
  · rename_i known hknown
    have ha : f.Holds a := ⟨known, hknown⟩
    have himp : ∀ f' : NodeFacts, f'.levels = f.levels.insert a o →
        (f'.Holds c ↔ f.Holds c ∨ c = a) := by
      intro f' hf'
      rw [Holds, hf', SortedMap.get?_insert]
      by_cases hc : c = a
      · simp [hc]
      · simp [hc, Holds]
    split
    · rw [himp _ rfl]
      simp [ha]
    · constructor
      · exact .inl
      · rintro (h | rfl | ⟨h, -⟩)
        · exact h
        · exact ha
        · exact absurd ha h
  · rename_i hnone
    have hnew : ¬ f.Holds a := not_holds_iff.2 hnone
    split
    · rename_i hr
      rw [holds_add]
      simp [hr, or_comm]
    · rename_i b hr
      rw [holds_add, holds_add]
      simp only [hr, hnew, not_false_eq_true, true_and, Option.some.injEq]
      rw [eq_comm (a := c) (b := b)]
      tauto

theorem holds_receive_iff_of_holds (h : f.Holds a) :
    (receive g l v f a o).Holds c ↔ f.Holds c := by
  rw [holds_receive]
  constructor
  · rintro (hc | rfl | ⟨hc, -⟩)
    · exact hc
    · exact h
    · exact absurd h hc
  · exact .inl

theorem holds_receive_self : (receive g l v f a o).Holds a := holds_receive.2 (.inr (.inl rfl))

theorem holds_receive_of_holds (h : f.Holds c) : (receive g l v f a o).Holds c :=
  holds_receive.2 (.inl h)

/--
An origin that a node has after an arrival is an old one, its own, or the one that arrived; the last
takes the place of an old one only when it is nearer.
-/
theorem origin_receive {o' : Origin} (h : (receive g l v f a o).levels.get? c = some o') :
    f.levels.get? c = some o' ∨
      (c = a ∧ o' = o ∧ ∀ known ∈ f.levels.get? a, (o.order g known).isLT = true) ∨
      (¬ f.Holds a ∧ f.raised? l a o = some c ∧ o' = .start v) := by
  rw [receive] at h
  split at h
  · rename_i known hknown
    split at h
    · rename_i hlt
      rw [SortedMap.get?_insert] at h
      split at h
      · rename_i hc
        refine .inr (.inl ⟨by simpa using hc, by simpa using h.symm, fun k hk => ?_⟩)
        rw [hknown] at hk
        cases hk
        exact hlt
      · exact .inl h
    · exact .inl h
  · rename_i hnone
    have hnew : ¬ f.Holds a := not_holds_iff.2 hnone
    have hany : ∀ known ∈ f.levels.get? a, (o.order g known).isLT = true := by
      intro known hk
      rw [hnone] at hk
      cases hk
    split at h
    · rw [get?_add] at h
      split at h
      · rename_i hc
        exact .inr (.inl ⟨hc, by simpa using h.symm, hany⟩)
      · exact .inl h
    · rename_i b hr
      rw [get?_add] at h
      split at h
      · rename_i hc
        exact .inr (.inr ⟨hnew, by rw [hc, hr], by simpa using h.symm⟩)
      · rw [get?_add] at h
        split at h
        · rename_i hc
          exact .inr (.inl ⟨hc, by simpa using h.symm, hany⟩)
        · exact .inl h

/-- Two levels of the node have no join; one level has none with itself only as a new join. -/
def Torn (l : Lattice) (f : NodeFacts) : Prop :=
  ∃ a b, f.Holds a ∧ f.Holds b ∧ l.join? a b = none ∧
    (a = b → ∃ t u, t ≠ u ∧ f.Holds t ∧ f.Holds u ∧ l.join? t u = some a ∧ a ≠ t ∧ a ≠ u)

theorem Torn.mono {f' : NodeFacts} (h : f.Torn l) (hh : ∀ c, f.Holds c → f'.Holds c) :
    f'.Torn l := by
  obtain ⟨a, b, ha, hb, hjoin, hself⟩ := h
  refine ⟨a, b, hh a ha, hh b hb, hjoin, fun hab => ?_⟩
  obtain ⟨t, u, hne, ht, hu, hrest⟩ := hself hab
  exact ⟨t, u, hne, hh t ht, hh u hu, hrest⟩

/-- The state of a node is the join of its levels, as long as there is one. -/
structure Steady (l : Lattice) (f : NodeFacts) : Prop where
  started : f.state = .unassigned ↔ ∀ a, ¬ f.Holds a
  unfrozen : ∀ t, f.state ≠ .final t
  joined : ∀ t, f.state = .tentative t → f.Holds t ∧ ∀ a, f.Holds a → l.dominatedBy a t = true
  torn : f.state = .conflicted → f.Torn l

theorem steady_empty : ({} : NodeFacts).Steady l := by
  refine ⟨⟨fun _ _ => not_holds_empty, fun _ => rfl⟩, fun t h => ?_, fun t h => ?_, fun h => ?_⟩ <;>
    cases h

theorem Steady.cases (hf : f.Steady l) :
    (f.state = .unassigned ∧ ∀ a, ¬ f.Holds a) ∨ (f.state = .conflicted) ∨
      ∃ t, f.state = .tentative t ∧ f.Holds t ∧ ∀ a, f.Holds a → l.dominatedBy a t = true := by
  cases hs : f.state with
  | unassigned => exact .inl ⟨rfl, hf.started.1 hs⟩
  | tentative t => exact .inr (.inr ⟨t, rfl, hf.joined t hs⟩)
  | final t => exact absurd hs (hf.unfrozen t)
  | conflicted => exact .inr (.inl rfl)

theorem Steady.exists_holds (hf : f.Steady l) (h : f.state ≠ .unassigned) : ∃ a, f.Holds a := by
  by_contra hcon
  exact h (hf.started.2 fun a ha => hcon ⟨a, ha⟩)

theorem Steady.of_raised (hf : f.Steady l) (h : f.raised? l a o = some b) :
    ∃ t, f.state = .tentative t ∧ f.Holds t ∧ l.join? t a = some b := by
  obtain ⟨hj, hba, -⟩ := raised?_eq_some.1 h
  rcases hf.cases with ⟨hs, -⟩ | hs | ⟨t, hs, ht, -⟩
  · simp only [joined?, hs, Option.some.injEq] at hj
    exact absurd hj.symm hba
  · simp [joined?, hs] at hj
  · exact ⟨t, hs, ht, by simpa [joined?, hs] using hj⟩

/-- A node whose levels all lie below a join is steady at it. -/
theorem steady_of_tentative {t : Level} (hs : f.state = .tentative t) (ht : f.Holds t)
    (hle : ∀ a, f.Holds a → l.dominatedBy a t = true) : f.Steady l := by
  refine ⟨⟨fun h => ?_, fun h => absurd ht (h t)⟩, fun u h => ?_, fun u h => ?_, fun h => ?_⟩
  · rw [hs] at h; cases h
  · rw [hs] at h; cases h
  · rw [hs] at h; cases h
    exact ⟨ht, hle⟩
  · rw [hs] at h; cases h

theorem steady_of_conflicted (hs : f.state = .conflicted) (h : f.Torn l) : f.Steady l := by
  refine ⟨⟨fun h' => ?_, fun h' => ?_⟩, fun u h' => ?_, fun u h' => ?_, fun _ => h⟩
  · rw [hs] at h'; cases h'
  · obtain ⟨a, -, ha, -⟩ := h
    exact absurd ha (h' a)
  · rw [hs] at h'; cases h'
  · rw [hs] at h'; cases h'

/-- What a raised join does when it arrives: it settles there or leaves no join. -/
theorem joined?_add_raised (hl : l.Lawful) (h : f.raised? l a o = some b) :
    (f.add l a o).joined? l b = some b ∨ (f.add l a o).joined? l b = none := by
  have hs : (f.add l a o).state = .tentative b := by
    rw [state_add, (raised?_eq_some.1 h).1]
  simp only [joined?, hs]
  cases hj : l.join? b b with
  | none => exact .inr rfl
  | some c => exact .inl (by rw [Lattice.join?_self hl hj])

theorem steady_add (hl : l.Lawful) (hf : f.Steady l) (ha : a < l.size) (hnew : ¬ f.Holds a)
    (hr : f.raised? l a o = none) : (f.add l a o).Steady l := by
  have hself : (f.add l a o).Holds a := holds_add.2 (.inl rfl)
  have hold : ∀ c, f.Holds c → (f.add l a o).Holds c := fun c hc => holds_add.2 (.inr hc)
  cases hj : f.joined? l a with
  | none =>
    refine steady_of_conflicted (by rw [state_add, hj]) ?_
    rcases hf.cases with ⟨hs, -⟩ | hs | ⟨t, hs, ht, -⟩
    · simp [joined?, hs] at hj
    · exact (hf.torn hs).mono hold
    · have hne : t ≠ a := fun h => hnew (h ▸ ht)
      exact ⟨t, a, hold t ht, hself, by simpa [joined?, hs] using hj, fun h => absurd h hne⟩
  | some b =>
    refine steady_of_tentative (by rw [state_add, hj]) (holds_add.2 (raised?_eq_none hr hj)) ?_
    intro c hc
    rcases hf.cases with ⟨hs, hnone⟩ | hs | ⟨t, hs, -, hle⟩
    · simp only [joined?, hs, Option.some.injEq] at hj
      subst hj
      rcases holds_add.1 hc with rfl | hc
      · exact hl.refl c ha
      · exact absurd hc (hnone c)
    · simp [joined?, hs] at hj
    · have hj : l.join? t a = some b := by simpa [joined?, hs] using hj
      rcases holds_add.1 hc with rfl | hc
      · exact Lattice.le_join_right hl hj
      · exact hl.trans c t b (hle c hc) (Lattice.le_join_left hl hj)

theorem steady_add_raised (hl : l.Lawful) (hf : f.Steady l) (hnew : ¬ f.Holds a)
    (hr : f.raised? l a o = some b) : ((f.add l a o).add l b (.start v)).Steady l := by
  have hself : ((f.add l a o).add l b (.start v)).Holds b := holds_add.2 (.inl rfl)
  obtain ⟨t, hs, ht, hjoin⟩ := hf.of_raised hr
  have hstate : (f.add l a o).state = .tentative b := by
    rw [state_add, (raised?_eq_some.1 hr).1]
  cases hj : l.join? b b with
  | some c =>
    have hj : (f.add l a o).joined? l b = some b := by
      simp only [joined?, hstate]
      rw [hj, Lattice.join?_self hl hj]
    refine steady_of_tentative (by rw [state_add, hj]) hself ?_
    intro c hc
    rcases holds_add.1 hc with rfl | hc
    · exact hl.refl c (Lattice.lt_of_join? hl hjoin)
    · rcases holds_add.1 hc with rfl | hc
      · exact Lattice.le_join_right hl hjoin
      · exact hl.trans c t b ((hf.joined t hs).2 c hc) (Lattice.le_join_left hl hjoin)
  | none =>
    -- the join is exclusive with itself
    have hjoined : (f.add l a o).joined? l b = none := by simpa only [joined?, hstate] using hj
    obtain ⟨-, hba, hb⟩ := raised?_eq_some.1 hr
    refine steady_of_conflicted (by rw [state_add, hjoined]) ⟨b, b, hself, hself, hj, fun _ => ?_⟩
    exact ⟨t, a, fun h => hnew (h ▸ ht), holds_add.2 (.inr (holds_add.2 (.inr ht))),
      holds_add.2 (.inr (holds_add.2 (.inl rfl))), hjoin, fun h => hb (h ▸ ht), hba⟩

theorem steady_of_same_holds {f' : NodeFacts} (hf : f.Steady l) (hs : f'.state = f.state)
    (hh : ∀ c, f'.Holds c ↔ f.Holds c) : f'.Steady l := by
  refine ⟨by simpa [hs, hh] using hf.started, by simpa [hs] using hf.unfrozen, fun t ht => ?_,
    fun h => (hf.torn (hs ▸ h)).mono fun c hc => (hh c).2 hc⟩
  obtain ⟨h, hle⟩ := hf.joined t (hs ▸ ht)
  exact ⟨(hh t).2 h, fun c hc => hle c ((hh c).1 hc)⟩

theorem state_receive_of_holds (h : f.Holds a) : (receive g l v f a o).state = f.state := by
  obtain ⟨known, hknown⟩ := h
  rw [receive, hknown]
  dsimp only
  split <;> rfl

theorem steady_receive (hl : l.Lawful) (hf : f.Steady l) (ha : a < l.size) :
    (receive g l v f a o).Steady l := by
  by_cases hh : f.Holds a
  · exact steady_of_same_holds hf (state_receive_of_holds hh) fun _ => holds_receive_iff_of_holds hh
  · rw [receive, not_holds_iff.1 hh]
    dsimp only
    split
    · rename_i hr
      exact steady_add hl hf ha hh hr
    · rename_i b hr
      exact steady_add_raised hl hf hh hr

/-- Something rules out that the node has one level: two of its levels, or its code taint. -/
def Troubled (l : Lattice) (n : Option Node) (f : NodeFacts) : Prop :=
  f.state = .conflicted ∨
    (∃ a b, a ≠ b ∧ f.Holds a ∧ f.Holds b ∧ l.compatible a b = false) ∨
      ∃ a code, n.bind (·.code?) = some code ∧ f.Holds a ∧ code.contains a = false

theorem not_troubled_empty {n : Option Node} : ¬ ({} : NodeFacts).Troubled l n := by
  rintro (h | ⟨a, b, -, h, -⟩ | ⟨a, code, -, h, -⟩)
  · cases h
  · exact not_holds_empty h
  · exact not_holds_empty h

end NodeFacts

namespace Spread

open NodeFacts

variable {g : Graph} {l : Lattice} {f : NodeFacts} {v : NodeId} {a b c : Level} {o : Origin}
  {kind : ConflictKind}

/-- The evidence that an arrival gives, that of the join it raises included. -/
def testimony (g : Graph) (l : Lattice) (f : NodeFacts) (v : NodeId) (a : Level) (o : Origin)
    (kind : ConflictKind) : List Witness :=
  match f.levels.get? a with
  | some _ => []
  | none =>
    evidence g l f v a o kind ++
      match f.raised? l a o with
      | none => []
      | some b => evidence g l (f.add l a o) v b (.start v) kind

theorem mem_clashes {p : Level × Origin} :
    p ∈ f.clashes l a ↔ f.levels.get? p.1 = some p.2 ∧ l.compatible a p.1 = false := by
  rw [clashes, List.mem_filter, SortedMap.get?_eq_some_iff]
  simp

theorem clashes_ne_nil : f.clashes l a ≠ [] ↔ ∃ c, f.Holds c ∧ l.compatible a c = false := by
  rw [ne_eq, List.eq_nil_iff_forall_not_mem]
  push Not
  constructor
  · rintro ⟨p, hp⟩
    obtain ⟨hp, hc⟩ := mem_clashes.1 hp
    exact ⟨p.1, ⟨p.2, hp⟩, hc⟩
  · rintro ⟨c, ⟨o', ho'⟩, hc⟩
    exact ⟨(c, o'), mem_clashes.2 ⟨ho', hc⟩⟩

theorem nearest?_isSome (h : f.Holds c) : (f.nearest? g).isSome := by
  obtain ⟨o', ho'⟩ := h
  have hmem := SortedMap.mem_of_get? ho'
  rw [nearest?]
  split
  · rename_i hnil
    rw [hnil] at hmem
    cases hmem
  · rfl

/-- There is something to set against a level that arrives exactly when it cannot join the node. -/
theorem opponents_ne_nil (hne : f.state ≠ .unassigned → ∃ c, f.Holds c) :
    opponents g l f a ≠ [] ↔
      (∃ c, f.Holds c ∧ l.compatible a c = false) ∨
        (f.joined? l a = none ∧ f.state ≠ .conflicted) := by
  rw [← clashes_ne_nil, opponents]
  split
  · rename_i hnil
    split
    · rename_i hif
      rw [Bool.and_eq_true, Option.isNone_iff_eq_none, bne_iff_ne] at hif
      have hstate : f.state ≠ .unassigned := by
        intro hs
        simp [joined?, hs] at hif
      obtain ⟨c, hc⟩ := hne hstate
      obtain ⟨p, hp⟩ := Option.isSome_iff_exists.1 (nearest?_isSome (g := g) hc)
      simp [hp, hif]
    · rename_i hif
      rw [Bool.and_eq_true, Option.isNone_iff_eq_none, bne_iff_ne] at hif
      simp [hnil, hif]
  · rename_i hcons
    exact ⟨fun h => .inl h, fun _ => hcons⟩

/-- A code taint lists at least one level. -/
def Listed (n : Option Node) : Prop := ∀ code, n.bind (·.code?) = some code → code.toList ≠ []

theorem allowedInstead_isSome {n : Node} (hcode : Listed (some n)) :
    (allowedInstead n a).isSome ↔ ∃ code, n.code? = some code ∧ code.contains a = false := by
  rw [allowedInstead]
  split
  · rename_i hnone
    simp [hnone]
  · rename_i code hsome
    have hne : code.toList ≠ [] := hcode code hsome
    have hmin : code.min?.isSome := by
      rw [SortedSet.min?]
      exact List.isSome_head?.2 hne
    split
    · rename_i hin
      simp [hsome, hin]
    · rename_i hout
      simp [hsome, hout, hmin]

theorem evidence_ne_nil (hcode : Listed g.nodes[v]?)
    (hne : f.state ≠ .unassigned → ∃ c, f.Holds c) :
    evidence g l f v a o kind ≠ [] ↔
      (∃ c, f.Holds c ∧ l.compatible a c = false) ∨
        (f.joined? l a = none ∧ f.state ≠ .conflicted) ∨
          ∃ code, g.nodes[v]?.bind (·.code?) = some code ∧ code.contains a = false := by
  have hforbidden : (g.nodes[v]?.bind (allowedInstead · a)).toList ≠ [] ↔
      ∃ code, g.nodes[v]?.bind (·.code?) = some code ∧ code.contains a = false := by
    cases hn : g.nodes[v]? with
    | none => simp
    | some n =>
      rw [Option.bind_some, ne_eq, Option.toList_eq_nil_iff, ← ne_eq, ← Option.isSome_iff_ne_none,
        allowedInstead_isSome (hn ▸ hcode)]
      simp
  have hagainst := opponents_ne_nil (g := g) (l := l) (a := a) hne
  rw [evidence, ← or_assoc, ← hagainst, ← hforbidden]
  simp only [ne_eq, List.append_eq_nil_iff, List.map_eq_nil_iff, not_and_or]

theorem troubled_add (hl : l.Lawful) (hcode : Listed g.nodes[v]?)
    (hne : f.state ≠ .unassigned → ∃ c, f.Holds c) (hnew : ¬ f.Holds a) :
    (f.add l a o).Troubled l g.nodes[v]? ↔
      f.Troubled l g.nodes[v]? ∨ evidence g l f v a o kind ≠ [] := by
  rw [evidence_ne_nil hcode hne]
  constructor
  · rintro (hs | ⟨x, y, hxy, hx, hy, hc⟩ | ⟨x, code, hn, hx, hc⟩)
    · have hj : f.joined? l a = none := by
        rw [state_add] at hs
        split at hs
        · cases hs
        · assumption
      by_cases hfs : f.state = .conflicted
      · exact .inl (.inl hfs)
      · exact .inr (.inr (.inl ⟨hj, hfs⟩))
    · -- two levels at odds were so before, or one of them is the new one
      rcases holds_add.1 hx with rfl | hx'
      · rcases holds_add.1 hy with rfl | hy'
        · exact absurd rfl hxy
        · exact .inr (.inl ⟨y, hy', hc⟩)
      · rcases holds_add.1 hy with rfl | hy'
        · exact .inr (.inl ⟨x, hx', by rw [Lattice.compatible_comm hl, hc]⟩)
        · exact .inl (.inr (.inl ⟨x, y, hxy, hx', hy', hc⟩))
    · rcases holds_add.1 hx with rfl | hx
      · exact .inr (.inr (.inr ⟨code, hn, hc⟩))
      · exact .inl (.inr (.inr ⟨x, code, hn, hx, hc⟩))
  · have hself : (f.add l a o).Holds a := holds_add.2 (.inl rfl)
    have hold : ∀ c, f.Holds c → (f.add l a o).Holds c := fun c hc => holds_add.2 (.inr hc)
    rintro ((hs | ⟨x, y, hxy, hx, hy, hc⟩ | ⟨x, code, hn, hx, hc⟩) | ⟨c, hc, hac⟩ | ⟨hj, -⟩ |
      ⟨code, hn, hc⟩)
    · exact .inl (by rw [state_add, show f.joined? l a = none by simp [joined?, hs]])
    · exact .inr (.inl ⟨x, y, hxy, hold x hx, hold y hy, hc⟩)
    · exact .inr (.inr ⟨x, code, hn, hold x hx, hc⟩)
    · refine .inr (.inl ⟨a, c, ?_, hself, hold c hc, hac⟩)
      rintro rfl
      exact hnew hc
    · exact .inl (by rw [state_add, hj])
    · exact .inr (.inr ⟨a, code, hn, hself, hc⟩)

theorem troubled_of_same_holds {f' : NodeFacts} {n : Option Node} (hs : f'.state = f.state)
    (hh : ∀ c, f'.Holds c ↔ f.Holds c) : f'.Troubled l n ↔ f.Troubled l n := by
  simp only [Troubled, hs, hh]

/-- A node is in trouble after an arrival exactly when it was, or the arrival gave evidence. -/
theorem troubled_receive (hl : l.Lawful) (hcode : Listed g.nodes[v]?) (hf : f.Steady l) :
    (receive g l v f a o).Troubled l g.nodes[v]? ↔
      f.Troubled l g.nodes[v]? ∨ testimony g l f v a o kind ≠ [] := by
  by_cases hh : f.Holds a
  · rw [troubled_of_same_holds (state_receive_of_holds hh) fun _ => holds_receive_iff_of_holds hh]
    obtain ⟨known, hknown⟩ := hh
    simp [testimony, hknown]
  · rw [receive, testimony, not_holds_iff.1 hh]
    dsimp only
    split
    · rw [List.append_nil]
      exact troubled_add hl hcode hf.exists_holds hh
    · rename_i b hr
      obtain ⟨-, hba, hb⟩ := raised?_eq_some.1 hr
      have hb : ¬ (f.add l a o).Holds b := fun h => (holds_add.1 h).elim hba hb
      rw [troubled_add hl hcode (fun _ => ⟨a, holds_add.2 (.inl rfl)⟩) hb,
        troubled_add hl hcode hf.exists_holds hh, or_assoc, ne_eq (_ ++ _), List.append_eq_nil_iff,
        not_and_or]

end Spread

end Enclave
