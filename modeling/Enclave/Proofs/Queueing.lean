import Enclave.Proofs.Arena
import Enclave.Proofs.ShortestPaths

/-!
# Enclave.Proofs.Queueing

A search that keeps the nodes to leave in a queue and, for each node met, the node it was met from.
When the goal comes to the front, the path to it is read off by walking back from node to node.

`Search.drained` is this search on trails: the first trail in the queue is left, and what it leads
to goes to the end. The queue never mixes more than two layers, so the trails are left in the order
in which the search by layers finds them (`drained_eq_layers`). `Queue.Mirrors` ties nodes and
parents to the trails that they stand for.

* `Queue.find_eq`: the search by a queue finds the path that the search by layers finds.
* `Arena.steps_eq`: the index of an arena gives the queue the steps that the graph has.
-/

namespace Enclave

open Std

namespace Search

variable {succ : Nat → List Nat} {count n : Nat} {seen seen' vs : List Nat}
  {t : Trail} {ts layer : List Trail}

/-- Trails in the order in which a queue leaves them. -/
def drained (succ : Nat → List Nat) : Nat → List Nat → List Trail → List Trail
  | 0, _, _ | _ + 1, _, [] => []
  | n + 1, seen, t :: ts =>
    t :: drained succ n (fresh seen (succ t.last) ++ seen)
      (ts ++ (fresh seen (succ t.last)).map t.extend)

theorem fresh_congr (h : ∀ v, v ∈ seen ↔ v ∈ seen') (vs : List Nat) :
    fresh seen vs = fresh seen' vs := by
  induction vs generalizing seen seen' with
  | nil => rfl
  | cons v vs ih =>
    have hcons : ∀ w, w ∈ v :: seen ↔ w ∈ v :: seen' := fun w => by
      rw [List.mem_cons, List.mem_cons, h]
    rw [fresh, fresh, ih h, ih hcons]
    simp only [List.contains_iff_mem, h]

theorem drained_congr (h : ∀ v, v ∈ seen ↔ v ∈ seen') (n : Nat) (ts : List Trail) :
    drained succ n seen ts = drained succ n seen' ts := by
  induction n generalizing seen seen' ts with
  | zero => rfl
  | succ n ih =>
    cases ts with
    | nil => rfl
    | cons t ts =>
      rw [drained, drained, fresh_congr h]
      refine congrArg (t :: ·) (ih (fun v => ?_) _)
      rw [List.mem_append, List.mem_append, h]

/-- A layer at the front of the queue is left as a whole, and the next layer is at the end then. -/
theorem drained_append (succ : Nat → List Nat) (layer more : List Trail) (n : Nat)
    (seen : List Nat) :
    drained succ (layer.length + n) seen (layer ++ more) =
      layer ++ drained succ n (ends (nextLayer succ seen layer) ++ seen)
        (more ++ nextLayer succ seen layer) := by
  induction layer generalizing more seen with
  | nil => simp [nextLayer, ends]
  | cons t ts ih =>
    have hlength : (t :: ts).length + n = ts.length + n + 1 := by
      rw [List.length_cons]
      omega
    rw [hlength, List.cons_append, drained, List.append_assoc, ih, List.cons_append,
      List.append_assoc, ends_nextLayer_cons]
    refine congrArg (t :: ·) (congrArg (ts ++ ·) ?_)
    refine drained_congr (fun v => ?_) _ _
    simp only [List.mem_append]
    tauto

theorem drained_nil (n : Nat) (seen : List Nat) : drained succ n seen [] = [] := by
  cases n <;> rfl

theorem length_unmet_fresh (hvs : ∀ v ∈ vs, v < count) (seen : List Nat) :
    (unmet count (fresh seen vs ++ seen)).length + (fresh seen vs).length ≤
      (unmet count seen).length := by
  induction vs generalizing seen with
  | nil => simp [fresh]
  | cons v vs ih =>
    rw [List.forall_mem_cons] at hvs
    rw [fresh]
    split
    · exact ih hvs.2 seen
    · rename_i hv
      have hnew : v ∉ seen := by simpa using hv
      have hless := length_unmet_cons hvs.1 hnew
      have hrest := ih hvs.2 (v :: seen)
      have hsame : unmet count (v :: fresh (v :: seen) vs ++ seen) =
          unmet count (fresh (v :: seen) vs ++ v :: seen) := by
        refine unmet_congr fun u => ?_
        simp only [List.cons_append, List.mem_cons, List.mem_append]
        exact or_left_comm
      rw [hsame, List.length_cons]
      omega

theorem length_unmet_nextLayer (hsucc : ∀ u v, Leads succ u v → v < count) (seen : List Nat)
    (layer : List Trail) :
    (unmet count (ends (nextLayer succ seen layer) ++ seen)).length +
      (nextLayer succ seen layer).length ≤ (unmet count seen).length := by
  induction layer generalizing seen with
  | nil => simp [nextLayer, ends]
  | cons t ts ih =>
    have hfresh := length_unmet_fresh (hsucc t.last) seen
    have hrest := ih (fresh seen (succ t.last) ++ seen)
    have hsame : unmet count (ends (nextLayer succ seen (t :: ts)) ++ seen) =
        unmet count (ends (nextLayer succ (fresh seen (succ t.last) ++ seen) ts) ++
          (fresh seen (succ t.last) ++ seen)) := by
      refine unmet_congr fun v => ?_
      rw [ends_nextLayer_cons]
      simp only [List.mem_append]
      tauto
    rw [hsame, nextLayer, List.length_append, List.length_map]
    omega

/-- A queue that may go on long enough leaves the trails that the layers hold, in their order. -/
theorem drained_eq_layers (hsucc : ∀ u v, Leads succ u v → v < count) {fuel : Nat}
    (hfuel : (unmet count seen).length ≤ fuel)
    (hn : layer.length + (unmet count seen).length ≤ n) :
    drained succ n seen layer = layers succ fuel seen layer := by
  induction fuel generalizing n seen layer with
  | zero =>
    have hnext := length_unmet_nextLayer hsucc seen layer
    have hnil : nextLayer succ seen layer = [] := List.length_eq_zero_iff.1 (by omega)
    obtain ⟨m, rfl⟩ := Nat.exists_eq_add_of_le (Nat.le_of_add_right_le hn)
    have hdrained := drained_append succ layer [] m seen
    rw [List.append_nil, hnil, List.append_nil, drained_nil, List.append_nil] at hdrained
    exact hdrained
  | succ fuel ih =>
    have hnext := length_unmet_nextLayer hsucc seen layer
    obtain ⟨m, rfl⟩ := Nat.exists_eq_add_of_le (Nat.le_of_add_right_le hn)
    have hdrained := drained_append succ layer [] m seen
    rw [List.append_nil, List.nil_append] at hdrained
    rw [hdrained, layers]
    cases hlayer : nextLayer succ seen layer with
    | nil => rw [drained_nil, List.append_nil]
    | cons t ts =>
      rw [hlayer, List.length_cons] at hnext
      refine congrArg (layer ++ ·) (ih ?_ ?_)
      · omega
      · rw [List.length_cons]
        omega

theorem fresh_of_nodup (hnodup : vs.Nodup) (hnew : ∀ v ∈ vs, v ∉ seen) : fresh seen vs = vs := by
  induction vs generalizing seen with
  | nil => rfl
  | cons v vs ih =>
    obtain ⟨hv, hvs⟩ := List.nodup_cons.1 hnodup
    rw [List.forall_mem_cons] at hnew
    have hrest : ∀ w ∈ vs, w ∉ v :: seen := by
      intro w hw hmem
      rcases List.mem_cons.1 hmem with rfl | hmem
      · exact hv hw
      · exact hnew.2 w hw hmem
    rw [fresh, if_neg (by simpa using hnew.1), ih hvs hrest]

end Search

/-- The nodes that are to be left, and for each node that was met the one it was met from. -/
structure Queue where
  parent : SortedMap NodeId (Option NodeId) := ∅
  waiting : List NodeId := []

namespace Queue

open Search

def enter (q : Queue) (v : NodeId) (origin : Option NodeId) : Queue :=
  ⟨q.parent.insert v origin, q.waiting ++ [v]⟩

def start (starts : List NodeId) : Queue := starts.foldl (fun q v => q.enter v none) {}

def meet (u : NodeId) (q : Queue) (v : NodeId) : Queue :=
  if q.parent.contains v then q else q.enter v (some u)

def back (parent : SortedMap NodeId (Option NodeId)) : Nat → NodeId → List NodeId
  | 0, v => [v]
  | n + 1, v =>
    match parent.get? v with
    | some (some u) => v :: back parent n u
    | _ => [v]

/-- At most `n` nodes are left, until the goal is at the front. -/
def run (succ : NodeId → List NodeId) (goal : NodeId) (depth : Nat) :
    Nat → Queue → Option (List NodeId)
  | 0, _ => none
  | n + 1, q =>
    match q.waiting with
    | [] => none
    | u :: rest =>
      if u = goal then some (back q.parent depth u).reverse
      else run succ goal depth n ((succ u).foldl (meet u) { q with waiting := rest })

def find (succ : NodeId → List NodeId) (starts : List NodeId) (goal : NodeId) (n : Nat) :
    Option (List NodeId) :=
  run succ goal n n (start starts)

variable {succ : NodeId → List NodeId} {count depth n : Nat} {seen seen' vs starts : List NodeId}
  {t : Trail} {ts : List Trail} {q : Queue} {goal v : NodeId}
  {parent : SortedMap NodeId (Option NodeId)} {origin : Option NodeId}

/-- The parents of the nodes of a trail are those before them. -/
inductive Traced (parent : SortedMap NodeId (Option NodeId)) : Trail → Prop
  | root {v : NodeId} : parent.get? v = some none → Traced parent ⟨v, []⟩
  | extend {t : Trail} {v : NodeId} : Traced parent t → parent.get? v = some (some t.last) →
      Traced parent (t.extend v)

namespace Traced

theorem back_eq (h : Traced parent t) (hn : t.length ≤ n) :
    (back parent n t.last).reverse = t.nodes := by
  have hback : back parent n t.last = t.last :: t.before := by
    induction h generalizing n with
    | root hroot =>
      cases n with
      | zero => rfl
      | succ n => rw [back, hroot]
    | @extend t v _ hparent ih =>
      rw [Trail.length_extend] at hn
      cases n with
      | zero => omega
      | succ n =>
        have hlast : (t.extend v).last = v := rfl
        rw [hlast, back, hparent]
        exact congrArg (v :: ·) (ih (by omega))
  rw [hback, Trail.nodes]

theorem insert (h : Traced parent t) (hnew : parent.contains v = false) :
    Traced (parent.insert v origin) t := by
  have hkeep : ∀ {w : NodeId} {o}, parent.get? w = some o →
      (parent.insert v origin).get? w = some o := by
    intro w o hw
    have hne : w ≠ v := by
      rintro rfl
      rw [SortedMap.contains, hw] at hnew
      cases hnew
    rw [SortedMap.get?_insert, if_neg (by simpa using hne), hw]
  induction h with
  | root hroot => exact .root (hkeep hroot)
  | extend _ hparent ih => exact .extend ih (hkeep hparent)

end Traced

/--
Nodes and parents stand for trails: those that wait to be left end at the nodes in the queue, and
each of them is no longer than what has been met allows.
-/
structure Mirrors (count : Nat) (q : Queue) (seen : List NodeId) (ts : List Trail) : Prop where
  waiting : q.waiting = ends ts
  met : ∀ v, q.parent.contains v = true ↔ v ∈ seen
  traced : ∀ t ∈ ts, Traced q.parent t
  short : ∀ t ∈ ts, t.length + (unmet count seen).length ≤ count

namespace Mirrors

theorem congr (h : Mirrors count q seen ts) (hseen : ∀ v, v ∈ seen ↔ v ∈ seen') :
    Mirrors count q seen' ts where
  waiting := h.waiting
  met v := (h.met v).trans (hseen v)
  traced := h.traced
  short := by
    rw [← unmet_congr hseen]
    exact h.short

theorem enter (h : Mirrors count q seen ts) (hlt : v < count) (hnew : v ∉ seen)
    (hlast : t.last = v) (htraced : Traced (q.parent.insert v origin) t)
    (hshort : t.length + (unmet count (v :: seen)).length ≤ count) :
    Mirrors count (q.enter v origin) (v :: seen) (ts ++ [t]) where
  waiting := by
    rw [Queue.enter, h.waiting, ends_append, ends, ends, List.map_singleton, hlast]
  met w := by
    rw [Queue.enter, SortedMap.contains, SortedMap.get?_insert, List.mem_cons, ← h.met w]
    by_cases hw : w = v
    · simp [hw]
    · simp [hw, SortedMap.contains]
  traced u hu := by
    rcases List.mem_append.1 hu with hu | hu
    · have hcontains : q.parent.contains v = false := by
        rw [← Bool.not_eq_true, h.met]
        exact hnew
      exact (h.traced u hu).insert hcontains
    · rw [List.mem_singleton.1 hu]
      exact htraced
  short u hu := by
    rcases List.mem_append.1 hu with hu | hu
    · have hless := length_unmet_cons hlt hnew
      have hold := h.short u hu
      omega
    · rw [List.mem_singleton.1 hu]
      exact hshort

/-- Every edge of a node is followed: what was not met before waits at the end of the queue. -/
theorem foldl_meet (h : Mirrors count q seen ts) (hvs : ∀ v ∈ vs, v < count)
    (htraced : Traced q.parent t) (hshort : t.length + (unmet count seen).length ≤ count) :
    Mirrors count (vs.foldl (meet t.last) q) (fresh seen vs ++ seen)
      (ts ++ (fresh seen vs).map t.extend) := by
  induction vs generalizing q seen ts with
  | nil => simpa [fresh] using h
  | cons v vs ih =>
    rw [List.forall_mem_cons] at hvs
    rw [List.foldl_cons, meet]
    by_cases hv : v ∈ seen
    · rw [if_pos ((h.met v).2 hv), fresh, if_pos (by simpa using hv)]
      exact ih h hvs.2 htraced hshort
    · have hcontains : q.parent.contains v = false := by
        rw [← Bool.not_eq_true, h.met]
        exact hv
      have hparent : (q.parent.insert v (some t.last)).get? v = some (some t.last) := by
        rw [SortedMap.get?_insert, if_pos (beq_self_eq_true v)]
      have hless := length_unmet_cons hvs.1 hv
      have hnext := h.enter (t := t.extend v) hvs.1 hv rfl
        (.extend (htraced.insert hcontains) hparent) (by rw [Trail.length_extend]; omega)
      have hall := ih hnext hvs.2 (htraced.insert hcontains) (by omega)
      rw [hcontains, if_neg Bool.false_ne_true, fresh, if_neg (by simpa using hv), List.map_cons,
        List.append_cons]
      refine hall.congr fun w => ?_
      simp only [List.cons_append, List.mem_cons, List.mem_append]
      exact or_left_comm

theorem foldl_enter (h : Mirrors count q seen ts) (hvs : ∀ v ∈ vs, v < count) (hnodup : vs.Nodup)
    (hnew : ∀ v ∈ vs, v ∉ seen) :
    Mirrors count (vs.foldl (fun q v => q.enter v none) q) (vs ++ seen)
      (ts ++ vs.map (⟨·, []⟩)) := by
  induction vs generalizing q seen ts with
  | nil => simpa using h
  | cons v vs ih =>
    rw [List.forall_mem_cons] at hvs hnew
    obtain ⟨hv, hnodup⟩ := List.nodup_cons.1 hnodup
    have hroot : (q.parent.insert v none).get? v = some none := by
      rw [SortedMap.get?_insert, if_pos (beq_self_eq_true v)]
    have hunmet := length_unmet_le count (v :: seen)
    have hnext := h.enter (t := ⟨v, []⟩) hvs.1 hnew.1 rfl (.root hroot)
      (by rw [Trail.length, List.length_nil]; omega)
    have hrest : ∀ w ∈ vs, w ∉ v :: seen := by
      intro w hw hmem
      rcases List.mem_cons.1 hmem with rfl | hmem
      · exact hv hw
      · exact hnew.2 w hw hmem
    have hall := ih hnext hvs.2 hnodup hrest
    rw [List.foldl_cons, List.map_cons, List.append_cons]
    refine hall.congr fun w => ?_
    simp only [List.cons_append, List.mem_cons, List.mem_append]
    exact or_left_comm

theorem start (hstarts : ∀ v ∈ starts, v < count) (hnodup : starts.Nodup) :
    Mirrors count (start starts) starts (starts.map (⟨·, []⟩)) := by
  have hempty : Mirrors count {} [] [] := by
    refine ⟨rfl, fun v => ⟨nofun, nofun⟩, nofun, nofun⟩
  have hall := hempty.foldl_enter hstarts hnodup fun _ _ => List.not_mem_nil
  rwa [List.append_nil, List.nil_append] at hall

/-- The queue finds the first trail to the goal among those that are left. -/
theorem run_eq (h : Mirrors count q seen ts) (hsucc : ∀ u v, Leads succ u v → v < count)
    (hdepth : count ≤ depth) :
    run succ goal depth n q =
      ((drained succ n seen ts).find? (·.last == goal)).map (·.nodes) := by
  induction n generalizing q seen ts with
  | zero => rfl
  | succ n ih =>
    rw [run, h.waiting]
    cases ts with
    | nil => rfl
    | cons t ts =>
      have htraced := h.traced t List.mem_cons_self
      have hshort := h.short t List.mem_cons_self
      have hends : ends (t :: ts) = t.last :: ends ts := rfl
      rw [hends, drained, List.find?_cons]
      by_cases hgoal : t.last = goal
      · have hlength : t.length ≤ depth := by omega
        simp only [if_pos hgoal, beq_iff_eq.2 hgoal, htraced.back_eq hlength, Option.map_some]
      · have hrest : Mirrors count { q with waiting := ends ts } seen ts :=
          ⟨rfl, h.met, fun u hu => h.traced u (List.mem_cons_of_mem t hu),
            fun u hu => h.short u (List.mem_cons_of_mem t hu)⟩
        simp only [if_neg hgoal, beq_eq_false_iff_ne.2 hgoal]
        exact ih (hrest.foldl_meet (hsucc t.last) htraced hshort)

end Mirrors

/--
The queue finds the path that the layers find: it need not leave more nodes, and no path back is
longer, than there are nodes.
-/
theorem find_eq (hsucc : ∀ u v, Leads succ u v → v < count) (hstarts : ∀ v ∈ starts, v < count)
    (hnodup : starts.Nodup) (hn : count ≤ n) :
    find succ starts goal n = (trailTo? count succ starts goal).map (·.nodes) := by
  have hroots : fresh [] starts = starts := fresh_of_nodup hnodup fun _ _ => List.not_mem_nil
  have hcount := length_unmet_fresh hstarts []
  have hunmet := length_unmet_le count []
  rw [hroots, List.append_nil] at hcount
  have hlayers : drained succ n starts (starts.map (⟨·, []⟩)) =
      layers succ count starts (starts.map (⟨·, []⟩)) := by
    refine drained_eq_layers hsucc (length_unmet_le count starts) ?_
    rw [List.length_map]
    omega
  rw [find, (Mirrors.start hstarts hnodup).run_eq hsucc hn, hlayers, trailTo?, trails, hroots]

end Queue

section Sorting

variable {α β : Type}

theorem sortBy_map (lt : β → β → Bool) (f : α → β) (l : List α) :
    sortBy lt (l.map f) = (sortBy (fun a b => lt (f a) (f b)) l).map f := by
  have hinsert : ∀ (a : α) (l : List α), insertBy lt (f a) (l.map f) =
      (insertBy (fun a b => lt (f a) (f b)) a l).map f := by
    intro a l
    induction l with
    | nil => rfl
    | cons b l ih =>
      rw [List.map_cons, insertBy, insertBy]
      split
      · rw [ih, List.map_cons]
      · rfl
  induction l with
  | nil => rfl
  | cons a l ih =>
    rw [List.map_cons, sortBy, List.foldr_cons, sortBy, List.foldr_cons, ← hinsert]
    exact congrArg (insertBy lt (f a)) ih

end Sorting

namespace Arena

/-- The edges that leave a node, by the index, in the order of the nodes that they lead to. -/
def successors (a : Arena) (u : NodeId) : List (Numbered Edge) :=
  sortOn (·.value.target) ((a.outgoing[u]?.getD []).filterMap (a.edges[·]?))

def steps (a : Arena) (follow : Edge × EdgeId → Bool) (u : NodeId) : List NodeId :=
  ((a.successors u).filter fun e => follow (e.value, e.id)).map (·.value.target)

theorem steps_eq (a : Arena) : a.steps = a.view.stepsFrom := by
  funext follow u
  have hedges : (a.outgoing[u]?.getD []).filterMap (a.edges[·]?) =
      (a.view.numberedEdges.filter (·.1.source == u)).map fun e => ⟨e.2, e.1⟩ := by
    rw [a.inStep.outgoing.getD_eq (fun i e he => (a.inStep.ends i e he).1),
      Store.filterMap_edges a.inStep.edges]
  have hsorted : a.successors u = (a.view.successors u).map fun e => ⟨e.2, e.1⟩ := by
    rw [successors, hedges, sortOn, sortBy_map]
    rfl
  rw [steps, hsorted, List.filter_map, List.map_map]
  rfl

end Arena

theorem Graph.find_eq_shortestPath? {g : Graph} {follow : Edge × EdgeId → Bool}
    {starts : List NodeId} {goal : NodeId} {n : Nat} (hcl : g.Closed)
    (hstarts : ∀ s ∈ starts, s < g.nodes.size) (hn : g.nodes.size ≤ n) :
    Queue.find (g.stepsFrom follow) (SortedSet.ofList starts).toList goal n =
      g.shortestPath? starts goal follow := by
  have hsorted : ∀ s ∈ (SortedSet.ofList starts).toList, s < g.nodes.size := fun s hs =>
    hstarts s (SortedSet.mem_ofList.1 hs)
  rw [Queue.find_eq hcl.lt_of_leads hsorted (SortedSet.nodup_toList _) hn, shortestPath?]

end Enclave
