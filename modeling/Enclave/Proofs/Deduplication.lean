import Enclave.Proofs.Witnesses
import Mathlib.Data.Sym.Sym2.Order
import Mathlib.Order.Lattice.Nat

/-!
# Enclave.Proofs.Deduplication

What a set of witnesses keeps of a sequence that was recorded into it: one witness for each pair of
seeds, the first of the shortest.

`Foremost` says of a witness and a sequence alone that it is that one. `Keeps` says of a set that it
holds the foremost witnesses of a sequence and no others, each under its pair; recording one more
witness keeps it so (`Keeps.record`), whichever of the three cases of `WitnessSet.record` applies.

* `recordAll_deduplicates`: what this says of the list that a set is read as.
-/

namespace Enclave

attribute [local instance] lexOrd

open Std

namespace Witness

variable {w w' : Witness}

def seeds (w : Witness) : Sym2 NodeId := s(w.incoming.seed, w.existing.seed)

/-- The edges from the one seed to the node where the levels meet, and from there to the other. -/
def span (w : Witness) : Nat := w.incoming.distance + w.existing.distance

theorem pair_eq (w : Witness) : w.pair = (w.seeds.inf, w.seeds.sup) := by
  unfold pair seeds
  rw [Sym2.inf_mk, Sym2.sup_mk]
  split
  · rename_i hle
    rw [inf_eq_left.2 hle, sup_eq_right.2 hle]
  · rename_i hlt
    have hle := Nat.le_of_not_le hlt
    rw [inf_eq_right.2 hle, sup_eq_left.2 hle]

theorem pair_eq_pair_iff : w.pair = w'.pair ↔ w.seeds = w'.seeds := by
  rw [pair_eq, pair_eq, Prod.mk.injEq, Sym2.inf_eq_inf_and_sup_eq_sup]

theorem combinedDistance_of_lt (h : w.span < word32) : w.combinedDistance = .ok w.span := if_pos h

end Witness

/--
Of the witnesses of a sequence with the same seeds this is the first of the shortest: those recorded
before it are longer, and none recorded after it is shorter.
-/
def Foremost (ws : List Witness) (w : Witness) : Prop :=
  ∃ before after, ws = before ++ w :: after ∧
    (∀ x ∈ before, x.seeds = w.seeds → w.span < x.span) ∧
    ∀ x ∈ after, x.seeds = w.seeds → w.span ≤ x.span

namespace Foremost

variable {ws : List Witness} {w x : Witness}

theorem mem (h : Foremost ws w) : w ∈ ws := by
  obtain ⟨before, after, rfl, -, -⟩ := h
  exact List.mem_append_right before List.mem_cons_self

theorem span_le (h : Foremost ws w) (hx : x ∈ ws) (hseeds : x.seeds = w.seeds) :
    w.span ≤ x.span := by
  obtain ⟨before, after, rfl, hbefore, hafter⟩ := h
  rcases List.mem_append.1 hx with hx | hx
  · exact Nat.le_of_lt (hbefore x hx hseeds)
  · rcases List.mem_cons.1 hx with rfl | hx
    · exact Nat.le_refl _
    · exact hafter x hx hseeds

theorem of_last (h : ∀ y ∈ ws, y.seeds = x.seeds → x.span < y.span) : Foremost (ws ++ [x]) x :=
  ⟨ws, [], rfl, h, fun _ hy => absurd hy List.not_mem_nil⟩

theorem append (h : Foremost ws w) (hx : x.seeds = w.seeds → w.span ≤ x.span) :
    Foremost (ws ++ [x]) w := by
  obtain ⟨before, after, rfl, hbefore, hafter⟩ := h
  refine ⟨before, after ++ [x], by simp, hbefore, fun y hy hseeds => ?_⟩
  rcases List.mem_append.1 hy with hy | hy
  · exact hafter y hy hseeds
  · cases List.mem_singleton.1 hy
    exact hx hseeds

theorem append_cases (h : Foremost (ws ++ [x]) w) :
    (Foremost ws w ∧ (x.seeds = w.seeds → w.span ≤ x.span)) ∨
      (w = x ∧ ∀ y ∈ ws, y.seeds = x.seeds → x.span < y.span) := by
  obtain ⟨before, after, heq, hbefore, hafter⟩ := h
  rcases List.eq_nil_or_concat after with rfl | ⟨init, y, rfl⟩
  · obtain ⟨rfl, hlast⟩ := List.append_inj' heq rfl
    cases hlast
    exact .inr ⟨rfl, hbefore⟩
  · rw [List.concat_eq_append, ← List.cons_append, ← List.append_assoc] at heq
    rw [List.concat_eq_append] at hafter
    obtain ⟨rfl, hlast⟩ := List.append_inj' heq rfl
    cases hlast
    refine .inl ⟨⟨before, init, rfl, hbefore, fun z hz => ?_⟩, ?_⟩
    · exact hafter z (List.mem_append_left _ hz)
    · exact hafter x (List.mem_append_right _ List.mem_cons_self)

theorem exists_of_mem (hx : x ∈ ws) : ∃ w, Foremost ws w ∧ w.seeds = x.seeds := by
  induction ws using List.reverseRecOn generalizing x with
  | nil => cases hx
  | append_singleton ws y ih =>
    by_cases hshorter : ∀ z ∈ ws, z.seeds = y.seeds → y.span < z.span
    · rcases List.mem_append.1 hx with hx | hx
      · obtain ⟨w, hw, hseeds⟩ := ih hx
        by_cases hy : y.seeds = w.seeds
        · exact ⟨y, .of_last hshorter, hy.trans hseeds⟩
        · exact ⟨w, hw.append fun h => absurd h hy, hseeds⟩
      · cases List.mem_singleton.1 hx
        exact ⟨y, .of_last hshorter, rfl⟩
    · -- the new witness is no shorter than one that was recorded for its seeds
      push Not at hshorter
      obtain ⟨z, hz, hzseeds, hzle⟩ := hshorter
      have hkeeps : ∀ w, Foremost ws w → Foremost (ws ++ [y]) w := fun w hw =>
        hw.append fun hy => (hw.span_le hz (hzseeds.trans hy)).trans hzle
      rcases List.mem_append.1 hx with hx | hx
      · obtain ⟨w, hw, hseeds⟩ := ih hx
        exact ⟨w, hkeeps w hw, hseeds⟩
      · cases List.mem_singleton.1 hx
        obtain ⟨w, hw, hseeds⟩ := ih hz
        exact ⟨w, hkeeps w hw, hseeds.trans hzseeds⟩

end Foremost

/-- The list has one witness for each pair of seeds of a sequence: the first of the shortest. -/
structure Deduplicates (ws kept : List Witness) : Prop where
  ascending : kept.Pairwise fun w w' => Prod.Lex (· < ·) (· < ·) w.pair w'.pair
  once : ∀ w ∈ ws, ∃! k, k ∈ kept ∧ k.seeds = w.seeds
  only : ∀ k ∈ kept, ∃ w ∈ ws, k.seeds = w.seeds
  foremost : ∀ k ∈ kept, Foremost ws k

namespace WitnessSet

variable {s s' : WitnessSet} {ws : List Witness} {w x : Witness}

/-- The set holds the foremost witnesses of a sequence, each under its pair, and nothing else. -/
def Keeps (ws : List Witness) (s : WitnessSet) : Prop :=
  ∀ k w, s.byPair.get? k = some w ↔ w.pair = k ∧ Foremost ws w

namespace Keeps

theorem empty : Keeps [] {} := by
  intro k w
  constructor
  · intro h
    cases h
  · rintro ⟨-, hw⟩
    exact absurd hw.mem List.not_mem_nil

theorem eq_of_seeds_eq (h : Keeps ws s) (hw : Foremost ws w) (hx : Foremost ws x)
    (hseeds : w.seeds = x.seeds) : w = x := by
  have hpair := Witness.pair_eq_pair_iff.2 hseeds
  exact Option.some.inj (((h x.pair w).2 ⟨hpair, hw⟩).symm.trans ((h x.pair x).2 ⟨rfl, hx⟩))

theorem of_le {kept : Witness} (h : Keeps ws s) (hkept : s.byPair.get? x.pair = some kept)
    (hle : kept.span ≤ x.span) : Keeps (ws ++ [x]) s := by
  obtain ⟨hpair, hforemost⟩ := (h _ _).1 hkept
  have hseeds := Witness.pair_eq_pair_iff.1 hpair
  intro k w
  rw [h k w]
  refine and_congr_right fun _ => ⟨fun hw => hw.append fun hx => ?_, fun hw => ?_⟩
  · rw [h.eq_of_seeds_eq hw hforemost (hx.symm.trans hseeds.symm)]
    exact hle
  · rcases hw.append_cases with ⟨hw, -⟩ | ⟨-, hshorter⟩
    · exact hw
    · exact absurd (hshorter kept hforemost.mem hseeds) (Nat.not_lt.2 hle)

theorem insert (h : Keeps ws s) (hshorter : ∀ y ∈ ws, y.seeds = x.seeds → x.span < y.span) :
    Keeps (ws ++ [x]) ⟨s.byPair.insert x.pair x⟩ := by
  intro k w
  by_cases hk : k = x.pair
  · subst hk
    rw [SortedMap.get?_insert_self, Option.some.injEq]
    constructor
    · rintro rfl
      exact ⟨rfl, .of_last hshorter⟩
    · rintro ⟨hpair, hw⟩
      have hseeds := Witness.pair_eq_pair_iff.1 hpair
      rcases hw.append_cases with ⟨hw, hle⟩ | ⟨rfl, -⟩
      · exact absurd (hle hseeds.symm) (Nat.not_le.2 (hshorter w hw.mem hseeds))
      · rfl
  · rw [SortedMap.get?_insert_of_ne hk, h k w]
    refine and_congr_right fun hpair => ⟨fun hw => hw.append fun hx => ?_, fun hw => ?_⟩
    · exact absurd (hpair.symm.trans (Witness.pair_eq_pair_iff.2 hx.symm)) hk
    · rcases hw.append_cases with ⟨hw, -⟩ | ⟨rfl, -⟩
      · exact hw
      · exact absurd hpair.symm hk

theorem record (h : Keeps ws s) (hws : ∀ w ∈ ws, w.span < word32) (hx : x.span < word32) :
    ∃ s', s.record x = .ok s' ∧ Keeps (ws ++ [x]) s' := by
  unfold WitnessSet.record
  cases hget : s.byPair.get? x.pair with
  | none =>
    refine ⟨_, rfl, h.insert fun y hy hseeds => ?_⟩
    -- a witness with these seeds would have left one under their pair
    obtain ⟨w, hw, hwseeds⟩ := Foremost.exists_of_mem hy
    have hpair := Witness.pair_eq_pair_iff.2 (hwseeds.trans hseeds)
    rw [(h x.pair w).2 ⟨hpair, hw⟩] at hget
    cases hget
  | some kept =>
    obtain ⟨hpair, hforemost⟩ := (h _ _).1 hget
    have hseeds := Witness.pair_eq_pair_iff.1 hpair
    have hold := Witness.combinedDistance_of_lt (hws kept hforemost.mem)
    have hnew := Witness.combinedDistance_of_lt hx
    simp only [hold, hnew, ok_bind]
    by_cases hle : kept.span ≤ x.span
    · exact ⟨s, by rw [if_pos hle]; rfl, h.of_le hget hle⟩
    · refine ⟨_, by rw [if_neg hle]; rfl, h.insert fun y hy hyseeds => ?_⟩
      have hkept := hforemost.span_le hy (hyseeds.trans hseeds.symm)
      omega

/-- Whatever is recorded in turn, the set keeps the foremost witnesses of all of it. -/
theorem recordAll {more : List Witness} (h : Keeps ws s) (hws : ∀ w ∈ ws, w.span < word32)
    (hmore : ∀ w ∈ more, w.span < word32) :
    ∃ s', s.recordAll more = .ok s' ∧ Keeps (ws ++ more) s' := by
  induction more generalizing ws s with
  | nil => exact ⟨s, rfl, by rwa [List.append_nil]⟩
  | cons x more ih =>
    have hx := hmore x List.mem_cons_self
    obtain ⟨s₁, hs₁, hkeeps⟩ := h.record hws hx
    have hws₁ : ∀ w ∈ ws ++ [x], w.span < word32 := by
      intro w hw
      rcases List.mem_append.1 hw with hw | hw
      · exact hws w hw
      · exact List.mem_singleton.1 hw ▸ hx
    obtain ⟨s', hs', hkeeps'⟩ := ih hkeeps hws₁ fun w hw => hmore w (List.mem_cons_of_mem x hw)
    refine ⟨s', by rw [recordAll_cons, hs₁, ok_bind, hs'], ?_⟩
    rwa [List.append_assoc, List.singleton_append] at hkeeps'

theorem mem_toList (h : Keeps ws s) : w ∈ s.toList ↔ Foremost ws w := by
  rw [WitnessSet.mem_toList]
  constructor
  · rintro ⟨k, hk⟩
    exact ((h k w).1 hk).2
  · intro hw
    exact ⟨w.pair, (h _ _).2 ⟨rfl, hw⟩⟩

theorem keyed (h : Keeps ws s) : s.Keyed := fun k w hk => ((h k w).1 hk).1

end Keeps

theorem lex_of_compare {p q : NodeId × NodeId} (h : compare p q = .lt) :
    Prod.Lex (· < ·) (· < ·) p q := by
  have hlex : (compare p.1 q.1).then (compare p.2 q.2) = .lt := h
  rw [Prod.lex_def]
  rcases Ordering.then_eq_lt.1 hlex with hfirst | ⟨hfirst, hsecond⟩
  · exact .inl (Nat.compare_eq_lt.1 hfirst)
  · exact .inr ⟨Nat.compare_eq_eq.1 hfirst, Nat.compare_eq_lt.1 hsecond⟩

theorem ascending_toList (h : s.Keyed) :
    s.toList.Pairwise fun w w' => Prod.Lex (· < ·) (· < ·) w.pair w'.pair := by
  unfold toList SortedMap.values
  refine List.pairwise_map.2 (s.byPair.ascending.imp_of_mem fun {e e'} he he' hlt => ?_)
  rw [h e.1 e.2 (SortedMap.get?_eq_some_iff.2 he), h e'.1 e'.2 (SortedMap.get?_eq_some_iff.2 he')]
  exact lex_of_compare hlt

theorem Keeps.deduplicates (h : Keeps ws s) : Deduplicates ws s.toList where
  ascending := ascending_toList h.keyed
  once w hw := by
    obtain ⟨k, hk, hseeds⟩ := Foremost.exists_of_mem hw
    refine ⟨k, ⟨h.mem_toList.2 hk, hseeds⟩, ?_⟩
    rintro k' ⟨hk', hseeds'⟩
    exact h.eq_of_seeds_eq (h.mem_toList.1 hk') hk (hseeds'.trans hseeds.symm)
  only k hk := ⟨k, (h.mem_toList.1 hk).mem, rfl⟩
  foremost _ := h.mem_toList.1

/--
Whatever sequence of witnesses is recorded into an empty set, as long as the distances of each have
a sum that fits its word, the set is read as one witness for each pair of seeds of the sequence, in
the order of the pairs: the first of the shortest.
-/
theorem recordAll_deduplicates (ws : List Witness) (hws : ∀ w ∈ ws, w.span < word32) :
    ∃ s, recordAll {} ws = .ok s ∧ Deduplicates ws s.toList := by
  obtain ⟨s, hs, hkeeps⟩ := Keeps.empty.recordAll (fun w hw => absurd hw List.not_mem_nil) hws
  exact ⟨s, hs, hkeeps.deduplicates⟩

def sighting (x y : NodeId) (dx dy : Nat) (meeting : NodeId) : Witness :=
  ⟨.data, ⟨x, 1, dx⟩, ⟨y, 0, dy⟩, meeting⟩

/-- Both orders of one pair, a witness that is shorter, a tie with it, and one pair by itself. -/
theorem recordAll_deduplicates_sightings :
    let ws := [sighting 2 3 1 0 9, sighting 0 1 3 0 5, sighting 1 0 1 1 6, sighting 1 0 2 0 7,
      sighting 0 2 1 0 2, sighting 0 1 0 2 8]
    (∀ w ∈ ws, w.span < word32) ∧ ∃ s, recordAll {} ws = .ok s ∧
      s.toList = [sighting 1 0 1 1 6, sighting 0 2 1 0 2, sighting 2 3 1 0 9] ∧
      Deduplicates ws s.toList := by
  intro ws
  have hfits : ∀ w ∈ ws, w.span < word32 := by decide
  have hlist : (recordAll {} ws).toOption.map (·.toList) =
      some [sighting 1 0 1 1 6, sighting 0 2 1 0 2, sighting 2 3 1 0 9] := by decide
  obtain ⟨s, hs, hdedup⟩ := recordAll_deduplicates ws hfits
  rw [hs] at hlist
  exact ⟨hfits, s, hs, Option.some.inj hlist, hdedup⟩

end WitnessSet

end Enclave
