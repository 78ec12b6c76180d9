import Enclave.Proofs.Evidence
import Enclave.Proofs.Exactness
import Enclave.Proofs.Provenance
import Mathlib.Data.String.Basic
import Mathlib.Order.Bounds.Defs

/-!
# Enclave.Proofs.Nearest

Levels spread in layers, so the origin that is recorded of a level is a nearest one. `DerivedFrom`
states by rules from where, and over how many edges, a level comes to a node.

A return level is under way one edge ahead of the seeds (`Graph.slack`), so a round may send a level
on before its origin is settled: the distances are right all the same, but among origins at one
distance the first by name need not be the one that was sent on. Where no function has a return
level of its own, both are. `Origin.Ranks` says this of two origins, and `Layered` of all that is
known after a number of rounds, whatever the lattice.

* `origins_nearest`: on a selective lattice the distance that is recorded of a fact is the least
  number of edges of its derivations, and where no function has a return level the seed is the first
  by name that has a derivation with as many.
-/

namespace Enclave

attribute [local instance] lexOrd

/-- The level comes to a node from the node that introduced it, over a number of edges. -/
inductive DerivedFrom (g : Graph) (x : NodeId) (a : Level) : Nat → NodeId → Prop
  | seed : g.nodes[x]?.bind (·.seed?) = some a → DerivedFrom g x a 0 x
  | sent {e : Edge} : e ∈ g.edges.toList → e.source = x → e.kinds.isPureData = true →
      g.nodes[x]?.bind (·.singleReturn?) = some a → ¬ g.Admits e a → DerivedFrom g x a 1 e.target
  | onward {n : Nat} {e : Edge} : DerivedFrom g x a n e.source → e ∈ g.edges.toList →
      ¬ ((g.nodes[e.source]?.bind (·.singleReturn?)).isSome ∧ e.kinds.isPureData = true) →
      ¬ g.Admits e a → DerivedFrom g x a (n + 1) e.target

theorem derived_iff {g : Graph} {v : NodeId} {a : Level} :
    Derived g v a ↔ ∃ x n, DerivedFrom g x a n v := by
  constructor
  · intro h
    induction h with
    | seed hseed => exact ⟨_, 0, .seed hseed⟩
    | sent he hpure hret hadm => exact ⟨_, 1, .sent he rfl hpure hret hadm⟩
    | onward _ he hown hadm ih =>
      obtain ⟨x, n, hx⟩ := ih
      exact ⟨x, n + 1, .onward hx he hown hadm⟩
  · intro h
    obtain ⟨x, n, h⟩ := h
    induction h with
    | seed hseed => exact .seed hseed
    | sent he hsource hpure hret hadm => exact .sent he hpure (hsource ▸ hret) hadm
    | onward _ he hown hadm ih => exact .onward ih he hown hadm

namespace Graph

variable {g : Graph} {v : NodeId} {a : Level}

/-- No function has exactly one return level. -/
def Returnless (g : Graph) : Prop := ∀ n ∈ g.nodes.toList, n.singleReturn? = none

instance (g : Graph) : Decidable g.Returnless :=
  inferInstanceAs (Decidable (∀ n ∈ g.nodes.toList, n.singleReturn? = none))

theorem Returnless.singleReturn? (h : g.Returnless) :
    g.nodes[v]?.bind (·.singleReturn?) ≠ some a := by
  intro hret
  obtain ⟨n, hn, hret⟩ := Option.bind_eq_some_iff.1 hret
  rw [h n (Array.mem_toList_iff.2 (Array.mem_of_getElem? hn))] at hret
  cases hret

/-- By how many edges levels may be ahead of the rounds. -/
def slack (g : Graph) : Nat := if g.Returnless then 0 else 1

theorem slack_le (g : Graph) : g.slack ≤ 1 := by
  unfold slack
  split <;> omega

theorem Returnless.slack_eq (h : g.Returnless) : g.slack = 0 := if_pos h

theorem slack_pos (h : g.nodes[v]?.bind (·.singleReturn?) = some a) : 0 < g.slack := by
  unfold slack
  split
  · rename_i hnone
    exact absurd h hnone.singleReturn?
  · omega

end Graph

namespace Origin

variable {g : Graph} {o o' o'' : Origin}

/-- The first origin is no farther than the second, nor later by name where names are settled. -/
structure Ranks (g : Graph) (o o' : Origin) : Prop where
  distance : o.distance ≤ o'.distance
  order : g.Returnless → o.NoFarther g o'

theorem NoFarther.ranks (h : o.NoFarther g o') : o.Ranks g o' := ⟨h.distance_le, fun _ => h⟩

theorem Ranks.of_noFarther (h : o.NoFarther g o') (h' : o'.Ranks g o'') : o.Ranks g o'' :=
  ⟨h.distance_le.trans h'.distance, fun hnone => h.trans (h'.order hnone)⟩

theorem Ranks.step (h : o.Ranks g o') :
    Ranks g ⟨o.seed, o.distance + 1⟩ ⟨o'.seed, o'.distance + 1⟩ :=
  ⟨Nat.succ_le_succ h.distance, fun hnone => (h.order hnone).step⟩

theorem ranks_of_lt (h : o.distance < o'.distance + g.slack) : o.Ranks g o' := by
  refine ⟨?_, fun hnone => ?_⟩
  · have := g.slack_le
    omega
  · rw [hnone.slack_eq] at h
    exact noFarther_iff.2 (.inl h)

end Origin

namespace Spread

open NodeFacts Enclave.Flow

variable {g : Graph} {l : Lattice} {members : List NodeId} {s s' : Flow} {x v : NodeId} {a : Level}
  {o : Origin} {n r : Nat} {budget : Budget}

/-- On a selective lattice no level is raised, so a provenance is a derivation. -/
theorem Provenance.derivedFrom (hl : l.Lawful) (hsel : l.Selective)
    (h : Provenance g l s v a o) : DerivedFrom g o.seed a o.distance v := by
  induction h with
  | seed hseed => exact .seed hseed
  | sent hret he hadm =>
    obtain ⟨hsucc, hpure⟩ := mem_returnEdges.1 he
    obtain ⟨hmem, hsource⟩ := mem_edges_of_mem_successors hsucc
    exact .sent hmem hsource hpure hret (admits_eq_false.1 hadm)
  | onward _ he hadm ih =>
    obtain ⟨hsucc, hown⟩ := mem_onwardEdges.1 he
    obtain ⟨hmem, rfl⟩ := mem_edges_of_mem_successors hsucc
    exact .onward ih hmem hown (admits_eq_false.1 hadm)
  | raised _ hraised =>
    obtain ⟨t, b, ht, hb, -, -, hjoin⟩ := hraised
    by_cases htb : t = b
    · subst htb
      exact absurd (Lattice.join?_self hl hjoin).symm ht
    · rcases hsel.join hl htb hjoin with h | h
      · exact absurd h.symm ht
      · exact absurd h.symm hb

/--
What is known after `r` rounds: every level that comes to a node over at most `r` edges, and of each
level an origin that no derivation comes before.
-/
structure Layered (g : Graph) (l : Lattice) (members : List NodeId) (r : Nat) (s : Flow) : Prop
    extends Afloat g l members s where
  within : ∀ v a o, (s.factsOf v).levels.get? a = some o → o.distance ≤ r + g.slack
  known : ∀ x n v a, v ∈ members → DerivedFrom g x a n v → n ≤ r → s.Holds v a
  returned : ∀ v ∈ members, ∀ a, g.nodes[v]?.bind (·.singleReturn?) = some a →
    ∀ e ∈ returnEdges g v, Delivered g s.solution e a
  ranked : ∀ v a o, (s.factsOf v).levels.get? a = some o → v ∈ members →
    ∀ x n, DerivedFrom g x a n v → o.Ranks g ⟨x, n⟩

theorem Passed.knows {e : Edge} {i : EdgeId} (h : Passed g s a o (e, i)) (hadm : ¬ g.Admits e a) :
    s.Knows g e.target a ⟨o.seed, o.distance + 1⟩ :=
  h.resolve_left fun h => hadm (admits_iff.1 h)

/-- The seeds are known from the start, and what comes over an edge cannot come before them. -/
theorem launch_layered (hl : l.Lawful) (hg : g.Over l) (hcl : g.Closed) :
    Ends (Layered g l members 0) (fun _ => True) (launch g l members budget) := by
  refine Ends.mono ((launch_ends hl hg hcl False.elim).and
    (launch_settles (d := g.slack) hl hg fun v a => Graph.slack_pos)) ?_ fun _ h => h
  intro s h
  obtain ⟨⟨hafloat, -, -, hseeds, hreturns⟩, hwithin, hplanted, -⟩ := h
  refine ⟨hafloat, fun v a o ho => ?_, fun x n v a hv hfrom hn => ?_, hreturns,
    fun v a o ho hv x n hfrom => ?_⟩
  · rw [Nat.zero_add]
    exact hwithin v a o ho
  · cases hfrom with
    | seed hseed => exact hseeds _ hv a hseed
    | sent => omega
    | onward => omega
  · have hle := hwithin v a o ho
    cases hfrom with
    | seed hseed =>
      obtain ⟨o', ho', hnear⟩ := hplanted _ hv a hseed
      cases Option.some.inj (ho.symm.trans ho')
      exact hnear.ranks
    | sent => exact Origin.ranks_of_lt (show o.distance < 1 + g.slack by omega)
    | @onward n e => exact Origin.ranks_of_lt (show o.distance < n + 1 + g.slack by omega)

section Layers

variable (hin : ∀ e ∈ g.edges.toList, e.source ∈ members ↔ e.target ∈ members)

include hin

/-- What comes over one edge more than there were rounds is known, or arrives in the next. -/
theorem Layered.arrives (hs : Layered g l members r s)
    (hpassed : ∀ v a, (v, a) ∈ s.pending.toList →
      ∀ o, (s.factsOf v).levels.get? a = some o → ∀ e ∈ onwardEdges g v, Passed g s' a o e)
    (hv : v ∈ members) (h : DerivedFrom g x a (r + 1) v) :
    s.Holds v a ∨ ∃ o, s'.Knows g v a o ∧ o.Ranks g ⟨x, r + 1⟩ := by
  cases h with
  | @sent e he hsource hpure hret hadm =>
    subst hsource
    obtain ⟨i, hi⟩ := exists_successor he
    have hmem := (hin e he).2 hv
    have hreturn := hs.returned e.source hmem a hret (e, i) (mem_returnEdges.2 ⟨hi, hpure⟩)
    exact .inl (hreturn.holds hadm)
  | @onward n e hfrom he hown hadm =>
    obtain ⟨i, hi⟩ := exists_successor he
    have hedge : (e, i) ∈ onwardEdges g e.source := mem_onwardEdges.2 ⟨hi, hown⟩
    have hmem := (hin e he).2 hv
    obtain ⟨o, ho⟩ := hs.known x r e.source a hmem hfrom (Nat.le_refl r)
    -- the fact one edge before goes on in this round, or has gone on already
    rcases hs.gone e.source a ⟨o, ho⟩ with hpending | hgone
    · have hknows := (hpassed e.source a hpending o ho (e, i) hedge).knows hadm
      exact .inr ⟨_, hknows, (hs.ranked e.source a o ho hmem x r hfrom).step⟩
    · exact .inl ((hgone (e, i) hedge).holds hadm)

theorem Layered.next (hs : Layered g l members r s) (hafloat : Afloat g l members s')
    (hgrows : s.Grows s') (hsettles : s.Settles g (r + 1 + g.slack) s')
    (hpassed : ∀ v a, (v, a) ∈ s.pending.toList →
      ∀ o, (s.factsOf v).levels.get? a = some o → ∀ e ∈ onwardEdges g v, Passed g s' a o e) :
    Layered g l members (r + 1) s' where
  toAfloat := hafloat
  within v a o ho := by
    rcases hsettles.within v a o ho with hold | hle
    · have := hs.within v a o hold
      omega
    · exact hle
  known x n v a hv hfrom hn := by
    by_cases hle : n ≤ r
    · exact hgrows.holds v a (hs.known x n v a hv hfrom hle)
    · have hlast : n = r + 1 := by omega
      subst hlast
      rcases hs.arrives hin hpassed hv hfrom with hold | ⟨o, hknows, -⟩
      · exact hgrows.holds v a hold
      · exact hknows.holds
  returned v hv a hret e he := (hs.returned v hv a hret e he).mono hgrows
  ranked v a o ho hv x n hfrom := by
    by_cases hold : s.Holds v a
    · obtain ⟨o₀, ho₀⟩ := hold
      obtain ⟨o', ho', hnear⟩ := hsettles.nearer v a o₀ ho₀
      cases Option.some.inj (ho.symm.trans ho')
      exact .of_noFarther hnear (hs.ranked v a o₀ ho₀ hv x n hfrom)
    · -- a fact that is new lies within the round, so only a derivation of its length matters
      have hnew : o.distance ≤ r + 1 + g.slack := by
        rcases hsettles.within v a o ho with h | h
        · exact absurd ⟨o, h⟩ hold
        · exact h
      have hlong : r < n := by
        by_contra hle
        exact hold (hs.known x n v a hv hfrom (by omega))
      by_cases hlast : n = r + 1
      · subst hlast
        rcases hs.arrives hin hpassed hv hfrom with h | ⟨o₁, ⟨o', ho', hnear⟩, hranks⟩
        · exact absurd h hold
        · cases Option.some.inj (ho.symm.trans ho')
          exact .of_noFarther hnear hranks
      · exact Origin.ranks_of_lt (show o.distance < n + g.slack by omega)

variable (hl : l.Lawful) (hg : g.Over l) (hcl : g.Closed)

include hl hg hcl

theorem round_layered (hs : Layered g l members r s) :
    Ends (Layered g l members (r + 1)) (fun _ => True) (round g l s) := by
  have hout : ∀ e ∈ g.edges.toList, e.source ∈ members → e.target ∈ members :=
    fun e he => (hin e he).1
  refine Ends.mono ((round_ends hl hg hcl hout hs.toAfloat False.elim).and
    (round_settles (d := r + 1 + g.slack) hl (fun v a => hs.reachable.lt hl hg) hs.held ?_)) ?_
    fun _ h => h
  · intro v a o ho
    have := hs.within v a o ho
    omega
  · intro s' h
    obtain ⟨⟨hafloat, hgrows, -, -⟩, hsettles, hpassed⟩ := h
    exact hs.next hin hafloat hgrows hsettles hpassed

theorem rounds_layered (fuel : Nat) (hs : Layered g l members r s) :
    Ends (fun s' => ∃ r', Layered g l members r' s') (fun _ => True) (rounds g l fuel s) := by
  induction fuel generalizing r s with
  | zero => exact Ends.of_ok ⟨r, hs⟩
  | succ fuel ih =>
    rw [rounds]
    split
    · exact Ends.of_ok ⟨r, hs⟩
    · exact (round_layered hin hl hg hcl hs).bind fun s₁ hs₁ => ih hs₁

theorem ranked_of_run {f : Flow} (h : run g l members budget = .ok (f.solution, f.budget))
    (ho : (f.factsOf v).levels.get? a = some o) (hv : v ∈ members) (hfrom : DerivedFrom g x a n v) :
    o.Ranks g ⟨x, n⟩ := by
  have hrun : Ends (fun p => ∃ r s, Layered g l members r s ∧ p = (s.solution, s.budget))
      (fun _ => True) (run g l members budget) := by
    refine (launch_layered hl hg hcl).bind fun s hs => ?_
    refine (rounds_layered hin hl hg hcl _ hs).bind fun s' hs' => ?_
    obtain ⟨r', hs'⟩ := hs'
    exact Ends.of_ok ⟨r', s', hs', rfl⟩
  rw [h] at hrun
  obtain ⟨r, s, hs, heq⟩ := hrun
  have hfacts : f.facts = s.facts := congrArg (fun p => p.1.facts) heq
  rw [factsOf_of_facts_eq hfacts] at ho
  exact hs.ranked v a o ho hv x n hfrom

end Layers

end Spread

/-- The origin of a level is a nearest one, and the first of those by name if names are settled. -/
structure Nearest (g : Graph) (v : NodeId) (a : Level) (o : Origin) : Prop where
  derived : DerivedFrom g o.seed a o.distance v
  least : IsLeast {n | ∃ x, DerivedFrom g x a n v} o.distance
  first : g.Returnless → g.nodes[o.seed]?.bind (·.seed?) = some a ∧
    ∀ x, DerivedFrom g x a o.distance v → g.name o.seed ≤ g.name x

theorem DerivedFrom.seed_of_returnless {g : Graph} {x v : NodeId} {a : Level} {n : Nat}
    (h : DerivedFrom g x a n v) (hnone : g.Returnless) : g.nodes[x]?.bind (·.seed?) = some a := by
  induction h with
  | seed hseed => exact hseed
  | sent _ _ _ hret _ => exact absurd hret hnone.singleReturn?
  | onward _ _ _ _ ih => exact ih

theorem Origin.name_le_of_noFarther {g : Graph} {o : Origin} {x : NodeId}
    (h : o.NoFarther g ⟨x, o.distance⟩) : g.name o.seed ≤ g.name x := by
  rcases noFarther_iff.1 h with hlt | ⟨-, hname⟩
  · exact absurd hlt (Nat.lt_irrefl _)
  · exact (isLE_compareOfLessAndEq le_antisymm not_le le_total).1 hname

namespace Graph

variable {g : Graph} {l : Lattice} {settings : SolverSettings} {s : Solution}

/--
On a selective lattice the facts of a solution are the derived ones, each recorded with a nearest
origin.
-/
theorem origins_nearest {names : List String} {spec : LatticeSpec}
    (hl : Lattice.build names spec = .ok l) (hsel : l.Selective) (hcl : g.Closed) (hg : g.Over l)
    (hs : g.solve l settings = .ok s) (v : NodeId) (a : Level) :
    (s.Holds v a ↔ ∃ x n, DerivedFrom g x a n v) ∧
      ∀ o, (s.factsOf v).levels.get? a = some o → Nearest g v a o := by
  have hlawful := Lattice.build_lawful hl
  refine ⟨?_, fun o ho => ?_⟩
  · rw [(solved_of_solve hlawful hg hcl hs).holds_iff_derived hlawful hsel hcl, derived_iff]
  · rcases (composed_of_solve hlawful hg hcl hs).facts v with hnone | ⟨p, f, hf, hsame⟩
    · rw [hnone] at ho
      cases ho
    rw [hsame] at ho
    obtain ⟨budget, hrun⟩ := hf.run
    have hin : ∀ e ∈ g.edges.toList, e.source ∈ p ↔ e.target ∈ p :=
      fun e he => edge_within_component hcl hf.part he
    have hv : v ∈ p := hf.reachable.mem_of_holds (fun e he => (hin e he).1) ⟨o, ho⟩
    have hderived := (hf.reachable.provenance hlawful hg v a o ho).derivedFrom hlawful hsel
    have hranked : ∀ x n, DerivedFrom g x a n v → o.Ranks g ⟨x, n⟩ := fun x n =>
      Spread.ranked_of_run hin hlawful hg hcl hrun ho hv
    refine ⟨hderived, ⟨⟨o.seed, hderived⟩, ?_⟩, fun hnone => ?_⟩
    · intro n hn
      obtain ⟨x, hx⟩ := hn
      exact (hranked x n hx).distance
    · exact ⟨hderived.seed_of_returnless hnone, fun x hx =>
        Origin.name_le_of_noFarther ((hranked x _ hx).order hnone)⟩

/-- Three places at one level, two of them as near to where their paths meet. -/
def converging : Program where
  labels := {
    functions := .ofList [("zone", { level := some "red" }), ("yard", { level := some "red" })]
    globals := .ofList [("area", { level := some "red" })] }
  ir := {
    defUse := [⟨"zone", "hub", none⟩, ⟨"area", "hub", none⟩, ⟨"yard", "gate", none⟩,
      ⟨"gate", "hub", none⟩, ⟨"hub", "sink", none⟩] }

theorem origins_nearest_converging :
    ∃ (names : List String) (l : Lattice) (g : Graph) (s : Solution),
    Lattice.build names {} = .ok l ∧ l.Selective ∧ g.Closed ∧ g.Over l ∧ g.solve l {} = .ok s ∧
    g.Returnless ∧
    (∃ v o, g.idOf? "sink" = some v ∧ (s.factsOf v).levels.get? 0 = some o ∧
      g.name o.seed = "area" ∧ o.distance = 2 ∧ Nearest g v 0 o) := by
  have hrun : (Analysis.prepare {} converging).toOption.any (fun r =>
      r.toOption.any fun p => (p.graph.solve p.lattice {}).toOption.any fun s => decide (
        p.lattice.Selective ∧ p.graph.Returnless ∧ p.graph.idOf? "sink" = some 5 ∧
        (s.factsOf 5).levels.get? 0 = some ⟨2, 2⟩ ∧ p.graph.name 2 = "area")) = true := by
    decide +kernel
  obtain ⟨p, s, hp, hs, hsel, hnone, hsink, ho, hname⟩ := Analysis.exists_solution_of_any hrun
  have hvalid := Analysis.valid_of_prepare hp
  have hlattice := (Analysis.prepare_eq_ok hp).1
  refine ⟨_, p.lattice, p.graph, s, hlattice, hsel, hvalid.closed, hvalid.labels, hs, hnone, 5,
    ⟨2, 2⟩, hsink, ho, hname, rfl, ?_⟩
  exact (origins_nearest hlattice hsel hvalid.closed hvalid.labels hs 5 0).2 _ ho

end Graph

end Enclave
