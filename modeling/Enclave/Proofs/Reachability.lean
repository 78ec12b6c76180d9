import Enclave.Data.Search
import Mathlib.Data.List.Basic
import Mathlib.Logic.Relation

/-!
# Enclave.Proofs.Reachability

The layered search meets exactly the nodes that its successor function leads to.

The search is bounded by the number of nodes. `layers_closed` shows that the bound is never what
stops it: every layer but the first meets a node that was not met before, so by the time the bound
is used up every node has been met.
-/

namespace Enclave

namespace Search

variable {succ : Nat → List Nat} {count : Nat}

def Leads (succ : Nat → List Nat) (u v : Nat) : Prop := v ∈ succ u

theorem mem_fresh {seen vs : List Nat} {v : Nat} : v ∈ fresh seen vs ↔ v ∈ vs ∧ v ∉ seen := by
  induction vs generalizing seen with
  | nil => simp [fresh]
  | cons w ws ih =>
    simp only [fresh]
    split
    · rename_i hw
      have hw : w ∈ seen := by simpa using hw
      rw [ih, List.mem_cons]
      constructor
      · rintro ⟨h, hs⟩
        exact ⟨.inr h, hs⟩
      · rintro ⟨rfl | h, hs⟩
        · exact absurd hw hs
        · exact ⟨h, hs⟩
    · rename_i hw
      have hw : w ∉ seen := by simpa using hw
      rw [List.mem_cons, ih, List.mem_cons, List.mem_cons]
      constructor
      · rintro (rfl | ⟨h, hs⟩)
        · exact ⟨.inl rfl, hw⟩
        · exact ⟨.inr h, fun hv => hs (.inr hv)⟩
      · rintro ⟨rfl | h, hs⟩
        · exact .inl rfl
        · by_cases hv : v = w
          · exact .inl hv
          · exact .inr ⟨h, fun hv' => hv'.elim hv hs⟩

theorem nodup_fresh (seen vs : List Nat) : (fresh seen vs).Nodup := by
  induction vs generalizing seen with
  | nil => simp [fresh]
  | cons w ws ih =>
    simp only [fresh]
    split
    · exact ih seen
    · refine List.nodup_cons.2 ⟨fun h => ?_, ih _⟩
      exact (mem_fresh.1 h).2 List.mem_cons_self

def ends (layer : List Trail) : List Nat := layer.map (·.last)

@[simp] theorem ends_map_extend (t : Trail) (vs : List Nat) : ends (vs.map t.extend) = vs := by
  rw [ends, List.map_map]
  exact List.map_id' vs

theorem ends_append (ts us : List Trail) : ends (ts ++ us) = ends ts ++ ends us := List.map_append

theorem ends_nextLayer_cons (seen : List Nat) (t : Trail) (ts : List Trail) :
    ends (nextLayer succ seen (t :: ts)) =
      fresh seen (succ t.last) ++ ends (nextLayer succ (fresh seen (succ t.last) ++ seen) ts) := by
  rw [nextLayer, ends_append, ends_map_extend]

/-- The next layer holds what one step leads to and was not met, and nothing else. -/
theorem mem_ends_nextLayer {seen : List Nat} {ts : List Trail} {v : Nat} :
    v ∈ ends (nextLayer succ seen ts) ↔ (∃ u ∈ ends ts, Leads succ u v) ∧ v ∉ seen := by
  induction ts generalizing seen with
  | nil => simp [nextLayer, ends]
  | cons t ts ih =>
    rw [ends_nextLayer_cons, List.mem_append, ih, mem_fresh]
    simp only [ends, List.map_cons, List.exists_mem_cons_iff, List.mem_append, mem_fresh, Leads]
    tauto

theorem reachable_of_mem_layers {fuel : Nat} {seen : List Nat} {layer : List Trail} {v : Nat}
    (h : v ∈ ends (layers succ fuel seen layer)) :
    ∃ u ∈ ends layer, Relation.ReflTransGen (Leads succ) u v := by
  induction fuel generalizing seen layer with
  | zero => exact ⟨v, h, .refl⟩
  | succ fuel ih =>
    simp only [layers] at h
    split at h
    · exact ⟨v, h, .refl⟩
    · rw [ends_append, List.mem_append] at h
      rcases h with h | h
      · exact ⟨v, h, .refl⟩
      · obtain ⟨w, hw, hwv⟩ := ih h
        obtain ⟨⟨u, hu, huw⟩, _⟩ := mem_ends_nextLayer.1 hw
        exact ⟨u, hu, .head huw hwv⟩

/-- What holds of every layer, whatever was met before it, holds of all that the search finds. -/
theorem forall_mem_layers {I : List Nat → List Trail → Prop} {P : Trail → Prop}
    (hnext : ∀ seen layer, I seen layer →
      I (ends (nextLayer succ seen layer) ++ seen) (nextLayer succ seen layer))
    (hlayer : ∀ seen layer, I seen layer → ∀ t ∈ layer, P t) (fuel : Nat) {seen : List Nat}
    {layer : List Trail} (h : I seen layer) : ∀ t ∈ layers succ fuel seen layer, P t := by
  induction fuel generalizing seen layer with
  | zero => exact hlayer seen layer h
  | succ fuel ih =>
    simp only [layers]
    split
    · exact hlayer seen layer h
    · intro t ht
      rcases List.mem_append.1 ht with ht | ht
      · exact hlayer seen layer h t ht
      · exact ih (hnext seen layer h) t ht

theorem subset_layers (fuel : Nat) (seen : List Nat) (layer : List Trail) :
    ends layer ⊆ ends (layers succ fuel seen layer) := by
  cases fuel with
  | zero => exact List.Subset.refl _
  | succ fuel =>
    simp only [layers]
    split
    · exact List.Subset.refl _
    · rw [ends_append]
      exact List.subset_append_left _ _

def unmet (count : Nat) (seen : List Nat) : List Nat := (List.range count).filter (· ∉ seen)

@[simp] theorem mem_unmet {seen : List Nat} {v : Nat} :
    v ∈ unmet count seen ↔ v < count ∧ v ∉ seen := by
  simp [unmet]

theorem unmet_congr {seen seen' : List Nat} (h : ∀ v, v ∈ seen ↔ v ∈ seen') :
    unmet count seen = unmet count seen' := by
  unfold unmet
  refine List.filter_congr fun v _ => ?_
  rw [decide_eq_decide, h]

theorem length_unmet_le (count : Nat) (seen : List Nat) : (unmet count seen).length ≤ count := by
  have hle := List.length_filter_le (· ∉ seen) (List.range count)
  rwa [List.length_range] at hle

theorem length_unmet_lt {seen met : List Nat} {v : Nat} (hv : v ∈ met) (hlt : v < count)
    (hnew : v ∉ seen) : (unmet count (met ++ seen)).length < (unmet count seen).length := by
  have hfilter : unmet count (met ++ seen) = (unmet count seen).filter (· ∉ met) := by
    rw [unmet, unmet, List.filter_filter]
    refine List.filter_congr fun u _ => ?_
    simp
  rw [hfilter, List.length_filter_lt_length_iff_exists]
  exact ⟨v, mem_unmet.2 ⟨hlt, hnew⟩, by simpa using hv⟩

theorem length_unmet_cons {seen : List Nat} {v : Nat} (hlt : v < count) (hnew : v ∉ seen) :
    (unmet count (v :: seen)).length + 1 ≤ (unmet count seen).length :=
  length_unmet_lt (List.mem_singleton.2 rfl) hlt hnew

/--
Where a search stands: `seen` is everything met so far, and only the nodes of `layer` may still lead
to something new.
-/
structure Frontier (succ : Nat → List Nat) (seen : List Nat) (layer : List Trail) : Prop where
  met : ends layer ⊆ seen
  done : ∀ u ∈ seen, u ∉ ends layer → ∀ v, Leads succ u v → v ∈ seen

theorem Frontier.leads {seen : List Nat} {layer : List Trail} {u v : Nat}
    (h : Frontier succ seen layer) (hu : u ∈ seen) (huv : Leads succ u v) :
    v ∈ ends (nextLayer succ seen layer) ++ seen := by
  by_cases hlayer : u ∈ ends layer
  · by_cases hv : v ∈ seen
    · exact List.mem_append_right _ hv
    · exact List.mem_append_left _ (mem_ends_nextLayer.2 ⟨⟨u, hlayer, huv⟩, hv⟩)
  · exact List.mem_append_right _ (h.done u hu hlayer v huv)

theorem Frontier.next {seen : List Nat} {layer : List Trail} (h : Frontier succ seen layer) :
    Frontier succ (ends (nextLayer succ seen layer) ++ seen) (nextLayer succ seen layer) where
  met := List.subset_append_left _ _
  done _ hu hlast _ huv :=
    h.leads ((List.mem_append.1 hu).elim (fun hu => absurd hu hlast) id) huv

/-- Nothing leads out of what has been met once the search ends. -/
theorem layers_closed (hsucc : ∀ u v, Leads succ u v → v < count) {fuel : Nat} {seen : List Nat}
    {layer : List Trail} (h : Frontier succ seen layer)
    (hfuel : (unmet count seen).length ≤ fuel) {u v : Nat}
    (hu : u ∈ seen ∨ u ∈ ends (layers succ fuel seen layer)) (huv : Leads succ u v) :
    v ∈ seen ∨ v ∈ ends (layers succ fuel seen layer) := by
  induction fuel generalizing seen layer with
  | zero =>
    have hnone : unmet count seen = [] := List.length_eq_zero_iff.1 (Nat.le_zero.1 hfuel)
    by_contra hv
    have hunmet : v ∈ unmet count seen := mem_unmet.2 ⟨hsucc u v huv, fun h => hv (.inl h)⟩
    rw [hnone] at hunmet
    cases hunmet
  | succ fuel ih =>
    simp only [layers] at hu ⊢
    split at hu
    · rename_i hnil
      have hu : u ∈ seen := hu.elim id fun hu => h.met hu
      have hv := h.leads hu huv
      rw [hnil] at hv
      exact .inl (by simpa [ends] using hv)
    · rename_i next hne
      -- a layer that is not empty adds to what is seen, so one step less of fuel is enough
      obtain ⟨w, hw⟩ : ∃ w, w ∈ ends (nextLayer succ seen layer) :=
        List.exists_mem_of_ne_nil _ fun hends => hne (List.map_eq_nil_iff.1 hends)
      obtain ⟨⟨x, -, hxw⟩, hnew⟩ := mem_ends_nextLayer.1 hw
      have hless := length_unmet_lt hw (hsucc x w hxw) hnew
      have hfuel' :
          (unmet count (ends (nextLayer succ seen layer) ++ seen)).length ≤ fuel := by omega
      rw [ends_append, List.mem_append] at hu ⊢
      have hu' : u ∈ ends (nextLayer succ seen layer) ++ seen ∨ u ∈ ends (layers succ fuel
          (ends (nextLayer succ seen layer) ++ seen) (nextLayer succ seen layer)) := by
        rcases hu with hu | hu | hu
        · exact .inl (List.mem_append_right _ hu)
        · exact .inl (List.mem_append_right _ (h.met hu))
        · exact .inr hu
      rcases ih h.next hfuel' hu' with hv | hv
      · rcases List.mem_append.1 hv with hv | hv
        · exact .inr (.inr (subset_layers _ _ _ hv))
        · exact .inl hv
      · exact .inr (.inr hv)

@[simp] theorem ends_roots (vs : List Nat) : ends (vs.map (⟨·, []⟩)) = vs := by
  rw [ends, List.map_map]
  exact List.map_id' vs

theorem mem_fresh_nil {vs : List Nat} {v : Nat} : v ∈ fresh [] vs ↔ v ∈ vs := by
  simp [mem_fresh]

theorem Frontier.roots {starts : List Nat} :
    Frontier succ (fresh [] starts) ((fresh [] starts).map (⟨·, []⟩)) where
  met := by
    rw [ends_roots]
    exact List.Subset.refl _
  done _ hu hu' := absurd (by rwa [ends_roots]) hu'

/-- The search meets exactly what can be reached, when nothing above `count` is led to. -/
theorem mem_reached (hsucc : ∀ u v, Leads succ u v → v < count) {starts : List Nat} {v : Nat} :
    v ∈ reached count succ starts ↔
      ∃ s ∈ starts, Relation.ReflTransGen (Leads succ) s v := by
  have hreached : reached count succ starts =
      ends (layers succ count (fresh [] starts) ((fresh [] starts).map (⟨·, []⟩))) := rfl
  rw [hreached]
  constructor
  · intro h
    obtain ⟨u, hu, huv⟩ := reachable_of_mem_layers h
    rw [ends_roots, mem_fresh_nil] at hu
    exact ⟨u, hu, huv⟩
  · rintro ⟨s, hs, hsv⟩
    have hsub : fresh [] starts ⊆
        ends (layers succ count (fresh [] starts) ((fresh [] starts).map (⟨·, []⟩))) :=
      fun u hu => subset_layers _ _ _ (by rwa [ends_roots])
    have hfuel := length_unmet_le count (fresh [] starts)
    induction hsv with
    | refl => exact hsub (mem_fresh_nil.2 hs)
    | tail _ hstep ih =>
      exact (layers_closed hsucc .roots hfuel (.inr ih) hstep).elim (fun h => hsub h) id

section Trails

variable {P : Nat → Prop}

theorem mem_nodes_extend {t : Trail} {v w : Nat} :
    w ∈ (t.extend v).nodes ↔ w = v ∨ w ∈ t.nodes := by
  simp only [Trail.nodes, Trail.extend, List.mem_reverse, List.mem_cons]

theorem forall_nodes_nextLayer (hsucc : ∀ u v, P u → Leads succ u v → P v) {ts : List Trail}
    (h : ∀ t ∈ ts, ∀ v ∈ t.nodes, P v) (seen : List Nat) :
    ∀ t ∈ nextLayer succ seen ts, ∀ v ∈ t.nodes, P v := by
  induction ts generalizing seen with
  | nil => intro t ht; cases ht
  | cons t ts ih =>
    have hfirst := h t List.mem_cons_self
    intro t' ht' w hw
    rcases List.mem_append.1 ht' with ht' | ht'
    · obtain ⟨v, hv, rfl⟩ := List.mem_map.1 ht'
      rcases mem_nodes_extend.1 hw with rfl | hw
      · exact hsucc t.last w (hfirst t.last (by simp [Trail.nodes])) (mem_fresh.1 hv).1
      · exact hfirst w hw
    · exact ih (fun t ht => h t (List.mem_cons_of_mem _ ht)) _ t' ht' w hw

/-- Whatever holds of the starting nodes, and of what a step leads to, holds along every trail. -/
theorem forall_nodes_trails (hsucc : ∀ u v, P u → Leads succ u v → P v) {starts : List Nat}
    (hstart : ∀ s ∈ starts, P s) : ∀ t ∈ trails count succ starts, ∀ v ∈ t.nodes, P v := by
  refine forall_mem_layers (I := fun _ layer => ∀ t ∈ layer, ∀ v ∈ t.nodes, P v)
    (fun seen _ h => forall_nodes_nextLayer hsucc h seen) (fun _ _ h => h) count fun t ht v hv => ?_
  obtain ⟨s, hs, rfl⟩ := List.mem_map.1 ht
  have hv : v = s := by simpa [Trail.nodes] using hv
  exact hv ▸ hstart s (mem_fresh.1 hs).1

end Trails

end Search

end Enclave
