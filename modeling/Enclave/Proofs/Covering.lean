import Enclave.Proofs.Exactness
import Enclave.Proofs.Twins

/-!
# Enclave.Proofs.Covering

Graphs in which at least as much travels as in another. `Graph.Covers g h` says that `g` has the
nodes of `h` and, for each edge of `h`, one between the twins of its ends that carries no less. The
edge may be of more kinds, which can only take away that a level is admitted as an argument. The one
thing that more kinds could stop is a return level, which is sent over data alone; it has to follow
for its function in another way.

* `Keeps.transport`, `Bounds.transport`: families that the edges of `g` keep are kept, at the twins,
  in `h`, so what holds of all levels in `g` bounds those in `h`.
* `Covers.exists_derived`: what is derived in `h` is derived in `g`.
-/

namespace Enclave

namespace Kinds

theorem subset_iff {s t : Kinds} :
    s.subset t = true ↔ ∀ k, s.contains k = true → t.contains k = true := by
  have hall : ∀ k, k ∈ DependenceKind.all := by
    intro k
    cases k <;> simp [DependenceKind.all]
  rw [subset, List.all_eq_true]
  refine forall_congr' fun k => ?_
  rw [toList, List.mem_filter]
  exact imp_congr_left (and_iff_right (hall k))

theorem isPureData_iff {s : Kinds} :
    s.isPureData = true ↔ ∀ k, s.contains k = true ↔ k = .data := by
  rw [isPureData, beq_iff_eq]
  constructor
  · rintro rfl k
    exact contains_single
  · intro h
    exact ext_contains fun k => (h k).trans contains_single.symm

end Kinds

namespace Graph

variable {g h : Graph} {l : Lattice} {P : NodeId → Level → Prop} {u v w : NodeId} {e d : Edge}
  {a : Level}

/-- The edge `e` of `g` carries between twins what `d` carries in `h`, if not more. -/
structure Outdoes (g h : Graph) (e d : Edge) : Prop where
  source : g.Twin h e.source d.source
  target : g.Twin h e.target d.target
  kinds : ∀ k, d.kinds.contains k = true → e.kinds.contains k = true
  alone : e.kinds.isPureData = true → d.kinds.isPureData = true
  /-- A return level that is not sent in `g` is one that the function has anyway. -/
  returns : d.kinds.isPureData = true → e.kinds.isPureData = true ∨
    ∀ a, g.nodes[e.source]?.bind (·.singleReturn?) = some a → Derived g e.source a

/-- Every node of `h` has one twin in `g`, and every edge one that outdoes it. -/
structure Covers (g h : Graph) : Prop where
  node : ∀ w < h.nodes.size, ∃ v, g.Twin h v w
  edge : ∀ d ∈ h.edges.toList, ∃ e ∈ g.edges.toList, g.Outdoes h e d
  unique : ∀ u v w, g.Twin h u w → g.Twin h v w → u = v

theorem Outdoes.admits (ho : g.Outdoes h e d) (hadm : g.Admits e a) : h.Admits d a := by
  obtain ⟨hkinds, t, args, ht, hargs, ha⟩ := hadm
  rw [Kinds.subset_iff] at hkinds
  refine ⟨Kinds.subset_iff.2 fun k hk => hkinds k (ho.kinds k hk), t, args, ?_, hargs, ha⟩
  rw [← ho.target.taint?, ht]

theorem Mirrors.covers (hm : g.Mirrors h) : g.Covers h where
  node := hm.node
  edge d hd := by
    obtain ⟨e, he, hs, ht, hkinds⟩ := hm.edge d hd
    refine ⟨e, he, hs, ht, ?_, ?_, ?_⟩
    · rw [hkinds]
      exact fun _ => id
    · rw [hkinds]
      exact id
    · rw [hkinds]
      exact .inl
  unique := hm.unique

theorem Keeps.transport (hc : g.Covers h) (hP : g.Keeps P) :
    h.Keeps fun w a => ∃ v, g.Twin h v w ∧ P v a where
  seed w a ha := by
    obtain ⟨n, hn, -⟩ := Option.bind_eq_some_iff.1 ha
    obtain ⟨v, hv⟩ := hc.node w (lt_size hn)
    exact ⟨v, hv, hP.seed v a (hv.seed?.trans ha)⟩
  sent d hd hpure a hret hadm := by
    obtain ⟨e, he, ho⟩ := hc.edge d hd
    have hret' := ho.source.singleReturn?.trans hret
    have hadm' : ¬ g.Admits e a := fun h => hadm (ho.admits h)
    refine ⟨e.target, ho.target, ?_⟩
    by_cases halone : e.kinds.isPureData = true
    · exact hP.sent e he halone a hret' hadm'
    · -- the level is not sent in place of those of the source, but goes on as one of them
      have hknown := (ho.returns hpure).resolve_left halone a hret'
      exact hP.onward e he (fun h => halone h.2) a (hP.of_derived hknown) hadm'
  onward d hd hown a hw hadm := by
    obtain ⟨u, hu, hPu⟩ := hw
    obtain ⟨e, he, ho⟩ := hc.edge d hd
    cases hc.unique _ _ _ hu ho.source
    refine ⟨e.target, ho.target, hP.onward e he ?_ a hPu fun h => hadm (ho.admits h)⟩
    rw [ho.source.singleReturn?]
    exact fun h => hown ⟨h.1, ho.alone h.2⟩

theorem Bounds.transport (hc : g.Covers h) (hP : g.Bounds l P) :
    h.Bounds l fun w a => ∃ v, g.Twin h v w ∧ P v a where
  toKeeps := hP.toKeeps.transport hc
  raised w t a b ht ha hjoin := by
    obtain ⟨u, hu, hPu⟩ := ht
    obtain ⟨v, hv, hPv⟩ := ha
    cases hc.unique _ _ _ hu hv
    exact ⟨u, hu, hP.raised u t a b hPu hPv hjoin⟩

theorem Covers.exists_derived (hc : g.Covers h) (hd : Derived h w a) :
    ∃ v, g.Twin h v w ∧ Derived g v a :=
  (Keeps.derived.transport hc).of_derived hd

end Graph

end Enclave
