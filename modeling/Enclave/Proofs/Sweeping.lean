import Enclave.Proofs.LeastPaths
import Mathlib.Logic.Function.Iterate

/-!
# Enclave.Proofs.Sweeping

What can be reached from a node does not depend on how it is searched for.

`Sweep` is a second search, of the other kind: it goes on from the node met last, takes the edges of
a node in the order in which they were added, and marks a node when it puts it on its stack. One
turn keeps `Sweep.Sound`, and each turn leaves less to do (`Sweep.left`), so that the search ends
within as many turns as the graph has nodes.

* `Graph.reachableFrom_exact`: this search, the search by layers and the search for a path all find
  the nodes to which followed edges lead.
-/

namespace Enclave

open Relation

/-- A search that has marked some nodes, and has yet to leave those on its stack. -/
structure Sweep where
  seen : SortedSet NodeId
  stack : List NodeId

namespace Sweep

variable {succ : NodeId → List NodeId} {count : Nat} {root u v : NodeId} {vs : List NodeId}
  {s : Sweep}

def start (v : NodeId) : Sweep := ⟨.ofList [v], [v]⟩

def push (s : Sweep) (v : NodeId) : Sweep :=
  if s.seen.contains v then s else ⟨s.seen.insert v, v :: s.stack⟩

/-- One turn: the node on top of the stack is left in every direction. -/
def turn (succ : NodeId → List NodeId) (s : Sweep) : Sweep :=
  match s.stack with
  | [] => s
  | u :: rest => (succ u).foldl push ⟨s.seen, rest⟩

theorem mem_seen_push : u ∈ (s.push v).seen.toList ↔ u = v ∨ u ∈ s.seen.toList := by
  unfold push
  split
  · rename_i hseen
    have hv := SortedSet.contains_iff.1 hseen
    constructor
    · exact .inr
    · rintro (rfl | hu)
      · exact hv
      · exact hu
  · exact SortedSet.mem_insert

theorem mem_stack_push :
    u ∈ (s.push v).stack ↔ u ∈ s.stack ∨ (u = v ∧ u ∉ s.seen.toList) := by
  unfold push
  split
  · rename_i hseen
    have hv := SortedSet.contains_iff.1 hseen
    constructor
    · exact .inl
    · rintro (hu | ⟨rfl, hu⟩)
      · exact hu
      · exact absurd hv hu
  · rename_i hseen
    rw [SortedSet.contains_iff] at hseen
    rw [List.mem_cons]
    constructor
    · rintro (rfl | hu)
      · exact .inr ⟨rfl, hseen⟩
      · exact .inl hu
    · rintro (hu | ⟨rfl, -⟩)
      · exact .inr hu
      · exact .inl rfl

theorem mem_seen_foldl_push :
    u ∈ (vs.foldl push s).seen.toList ↔ u ∈ vs ∨ u ∈ s.seen.toList := by
  induction vs generalizing s with
  | nil => simp
  | cons v vs ih =>
    rw [List.foldl_cons, ih, mem_seen_push, List.mem_cons]
    tauto

theorem mem_stack_foldl_push :
    u ∈ (vs.foldl push s).stack ↔ u ∈ s.stack ∨ (u ∈ vs ∧ u ∉ s.seen.toList) := by
  induction vs generalizing s with
  | nil => simp
  | cons v vs ih =>
    rw [List.foldl_cons, ih, mem_stack_push, mem_seen_push, List.mem_cons]
    tauto

/-- Everything marked can be reached, and only the nodes on the stack may lead to something else. -/
structure Sound (succ : NodeId → List NodeId) (root : NodeId) (s : Sweep) : Prop where
  begun : root ∈ s.seen.toList
  reached : ∀ v ∈ s.seen.toList, ReflTransGen (Search.Leads succ) root v
  waiting : s.stack ⊆ s.seen.toList
  done : ∀ u ∈ s.seen.toList, u ∉ s.stack → ∀ v, Search.Leads succ u v → v ∈ s.seen.toList

namespace Sound

theorem start (succ : NodeId → List NodeId) (v : NodeId) : Sound succ v (start v) where
  begun := SortedSet.mem_ofList.2 List.mem_cons_self
  reached u hu := by
    rw [List.mem_singleton.1 (SortedSet.mem_ofList.1 hu)]
  waiting _ hu := SortedSet.mem_ofList.2 hu
  done _ hu hstack := absurd (SortedSet.mem_ofList.1 hu) hstack

theorem turn (h : Sound succ root s) : Sound succ root (s.turn succ) := by
  unfold Sweep.turn
  split
  · exact h
  · rename_i u rest hstack
    have hu : u ∈ s.seen.toList := h.waiting (by rw [hstack]; exact List.mem_cons_self)
    refine ⟨mem_seen_foldl_push.2 (.inr h.begun), fun v hv => ?_, fun v hv => ?_,
      fun w hw hout v hlead => ?_⟩
    · rcases mem_seen_foldl_push.1 hv with hv | hv
      · exact (h.reached u hu).tail hv
      · exact h.reached v hv
    · rcases mem_stack_foldl_push.1 hv with hv | ⟨hv, -⟩
      · exact mem_seen_foldl_push.2 (.inr (h.waiting (by
          rw [hstack]
          exact List.mem_cons_of_mem u hv)))
      · exact mem_seen_foldl_push.2 (.inl hv)
    · -- a node that is not on the stack now was left before, or is the one that was left just now
      rw [mem_stack_foldl_push, not_or, not_and_not_right] at hout
      have hold : w ∈ s.seen.toList := (mem_seen_foldl_push.1 hw).elim hout.2 id
      by_cases hwu : w = u
      · exact mem_seen_foldl_push.2 (.inl (hwu ▸ hlead))
      · refine mem_seen_foldl_push.2 (.inr (h.done w hold ?_ v hlead))
        rw [hstack, List.mem_cons, not_or]
        exact ⟨hwu, hout.1⟩

theorem turns (h : Sound succ root s) (n : Nat) : Sound succ root ((Sweep.turn succ)^[n] s) := by
  induction n with
  | zero => exact h
  | succ n ih =>
    rw [Function.iterate_succ_apply']
    exact ih.turn

theorem mem_seen_iff (h : Sound succ root s) (hempty : s.stack = []) :
    v ∈ s.seen.toList ↔ ReflTransGen (Search.Leads succ) root v := by
  refine ⟨h.reached v, fun hreach => ?_⟩
  induction hreach with
  | refl => exact h.begun
  | @tail u v _ hlead ih => exact h.done u ih (by rw [hempty]; exact List.not_mem_nil) v hlead

end Sound

/-- What is left to do at most: the nodes that are not marked, and those on the stack. -/
def left (count : Nat) (s : Sweep) : Nat :=
  (Search.unmet count s.seen.toList).length + s.stack.length

theorem left_push (s : Sweep) (hv : v < count) : (s.push v).left count ≤ s.left count := by
  unfold push
  split
  · exact Nat.le_refl _
  · rename_i hseen
    rw [SortedSet.contains_iff] at hseen
    have hsame : Search.unmet count (s.seen.insert v).toList =
        Search.unmet count (v :: s.seen.toList) := Search.unmet_congr fun u => by simp
    have hless := Search.length_unmet_cons hv hseen
    rw [← hsame] at hless
    show (Search.unmet count (s.seen.insert v).toList).length + (s.stack.length + 1) ≤
      (Search.unmet count s.seen.toList).length + s.stack.length
    omega

theorem left_foldl_push (s : Sweep) (hvs : ∀ v ∈ vs, v < count) :
    (vs.foldl push s).left count ≤ s.left count := by
  induction vs generalizing s with
  | nil => exact Nat.le_refl _
  | cons v vs ih =>
    rw [List.foldl_cons]
    exact (ih _ fun u hu => hvs u (List.mem_cons_of_mem v hu)).trans
      (left_push s (hvs v List.mem_cons_self))

theorem left_turn (hsucc : ∀ u v, Search.Leads succ u v → v < count) (h : s.stack ≠ []) :
    (s.turn succ).left count < s.left count := by
  unfold turn
  split
  · rename_i hnil
    exact absurd hnil h
  · rename_i u rest hstack
    refine Nat.lt_of_le_of_lt (left_foldl_push _ fun v hv => hsucc u v hv) ?_
    unfold left
    rw [hstack, List.length_cons]
    exact Nat.lt_succ_self _

theorem turn_of_empty (h : s.stack = []) : s.turn succ = s := by
  unfold turn
  rw [h]

/-- The search ends: turns as many as there is left to do empty the stack. -/
theorem stack_turns (hsucc : ∀ u v, Search.Leads succ u v → v < count) {n : Nat}
    (h : s.left count ≤ n) : ((turn succ)^[n] s).stack = [] := by
  induction n generalizing s with
  | zero =>
    unfold left at h
    show s.stack = []
    exact List.length_eq_zero_iff.1 (by omega)
  | succ n ih =>
    rw [Function.iterate_succ_apply]
    by_cases hempty : s.stack = []
    · rw [turn_of_empty hempty, Function.iterate_fixed (turn_of_empty hempty)]
      exact hempty
    · have hless := left_turn hsucc hempty
      exact ih (by omega)

theorem left_start (hv : v < count) : (start v).left count ≤ count := by
  have hless : (Search.unmet count ([v] ++ [])).length < (Search.unmet count []).length :=
    Search.length_unmet_lt (List.mem_singleton.2 rfl) hv List.not_mem_nil
  have hall := Search.length_unmet_le count []
  show (Search.unmet count [v]).length + 1 ≤ count
  rw [List.append_nil] at hless
  omega

/-- Turns as many as there are nodes find all that can be reached. -/
theorem turns_eq (hsucc : ∀ u v, Search.Leads succ u v → v < count) (hv : v < count)
    {set : SortedSet NodeId}
    (hset : ∀ w, w ∈ set.toList ↔ ReflTransGen (Search.Leads succ) v w) {n : Nat}
    (hn : count ≤ n) : (turn succ)^[n] (start v) = ⟨set, []⟩ := by
  have hstack := stack_turns hsucc ((left_start hv).trans hn)
  have hsound := (Sound.start succ v).turns n
  have hseen : ((turn succ)^[n] (start v)).seen = set :=
    SortedSet.ext_mem fun w => by rw [hsound.mem_seen_iff hstack, hset]
  rw [← hseen, ← hstack]

end Sweep

namespace Graph

variable {g : Graph} {follow : Edge × EdgeId → Bool} {start v : NodeId}

/-- The nodes one followed edge away, in the order in which the edges were added. -/
def targets (g : Graph) (follow : Edge × EdgeId → Bool) (u : NodeId) : List NodeId :=
  ((g.numberedEdges.filter (·.1.source == u)).filter follow).map (·.1.target)

theorem leads_targets : Search.Leads (g.targets follow) = Search.Leads (g.stepsFrom follow) := by
  funext u v
  refine propext ?_
  have hperm : (g.stepsFrom follow u).Perm (g.targets follow u) :=
    ((sortOn_perm _ _).filter follow).map _
  exact hperm.mem_iff.symm

theorem leads_stepsFrom_eq : Search.Leads (g.stepsFrom follow) = g.Steps follow := by
  funext u v
  exact propext leads_stepsFrom

theorem mem_reachableFrom (hcl : g.Closed) :
    v ∈ (g.reachableFrom start follow).toList ↔ ReflTransGen (g.Steps follow) start v := by
  rw [reachableFrom, SortedSet.mem_ofList, Search.mem_reached hcl.lt_of_leads, leads_stepsFrom_eq]
  simp

/-- A path from one node is found exactly to what can be reached from it. -/
theorem isSome_shortestPath?_iff (hcl : g.Closed) :
    (g.shortestPath? [start] v follow).isSome = true ↔
      ReflTransGen (g.Steps follow) start v := by
  constructor
  · intro hsome
    obtain ⟨path, hpath⟩ := Option.isSome_iff_exists.1 hsome
    obtain ⟨t, ht, hlast, -⟩ :=
      connects_iff_follows.1 (leastPath_of_shortestPath? hpath).connects
    obtain ⟨s, hs, hreach⟩ := ht.reaches
    rw [List.mem_singleton.1 (SortedSet.mem_ofList.1 hs), hlast, leads_stepsFrom_eq] at hreach
    exact hreach
  · intro hreach
    -- the steps that lead to the node are a trail, and a trail is a path
    have htrail : ∃ t, Search.Follows (g.stepsFrom follow) (SortedSet.ofList [start]).toList t ∧
        t.last = v := by
      induction hreach with
      | refl => exact ⟨⟨start, []⟩, .root (SortedSet.mem_ofList.2 List.mem_cons_self), rfl⟩
      | tail _ hstep ih =>
        obtain ⟨t, ht, rfl⟩ := ih
        exact ⟨t.extend _, ht.extend (leads_stepsFrom.2 hstep), rfl⟩
    obtain ⟨t, ht, hlast⟩ := htrail
    exact Option.isSome_iff_exists.2 (exists_shortestPath?_of_connects hcl
      (connects_iff_follows.2 ⟨t, ht, hlast, rfl⟩))

/--
From every node of a graph and along any choice of edges, what can be reached is what the followed
edges lead to in any number of steps, the node itself included. A search from a stack ends within as
many turns as there are nodes and marks the same nodes, and a path is found to these and to no
others.
-/
theorem reachableFrom_exact (hg : g.Built) (hstart : start < g.nodes.size)
    (follow : Edge × EdgeId → Bool) :
    (∀ n, g.nodes.size ≤ n →
      (Sweep.turn (g.targets follow))^[n] (.start start) = ⟨g.reachableFrom start follow, []⟩) ∧
    (∀ v, v ∈ (g.reachableFrom start follow).toList ↔
      ReflTransGen (g.Steps follow) start v) ∧
    ∀ v, v ∈ (g.reachableFrom start follow).toList ↔
      (g.shortestPath? [start] v follow).isSome = true := by
  have hcl := hg.closed
  refine ⟨fun n hn => ?_, fun v => mem_reachableFrom hcl, fun v => ?_⟩
  · refine Sweep.turns_eq ?_ hstart (fun v => ?_) hn
    · rw [leads_targets]
      exact hcl.lt_of_leads
    · rw [mem_reachableFrom hcl, leads_targets, leads_stepsFrom_eq]
  · rw [mem_reachableFrom hcl, isSome_shortestPath?_iff hcl]

/-- A ring with a way out of it by a call, and a node that only leads into it. -/
def ringed : Graph :=
  (History.replay [.connect "a" "c" .data none, .connect "a" "b" .data none,
    .connect "b" "c" .control none, .connect "c" "a" .data none, .connect "b" "d" .call none,
    .connect "e" "a" .data none, .connect "d" "d" .data none]).graph

theorem reachableFrom_exact_ringed : ringed.Built ∧ 0 < ringed.nodes.size ∧
    (ringed.reachableFrom 0 fun _ => true).toList = [0, 1, 2, 3] ∧
    (ringed.reachableFrom 0 fun e => !e.1.kinds.contains .call).toList = [0, 1, 2] ∧
    ReflTransGen (ringed.Steps fun _ => true) 0 3 ∧
    ¬ ReflTransGen (ringed.Steps fun e => !e.1.kinds.contains .call) 0 3 := by
  have hbuilt : ringed.Built := .replayed _
  have hsize : 0 < ringed.nodes.size := by decide +kernel
  have hall : (ringed.reachableFrom 0 fun _ => true).toList = [0, 1, 2, 3] := by decide +kernel
  have hcalls : (ringed.reachableFrom 0 fun e => !e.1.kinds.contains .call).toList =
      [0, 1, 2] := by decide +kernel
  refine ⟨hbuilt, hsize, hall, hcalls, ?_, ?_⟩
  · rw [← (reachableFrom_exact hbuilt hsize _).2.1 3, hall]
    decide
  · rw [← (reachableFrom_exact hbuilt hsize _).2.1 3, hcalls]
    decide

end Graph

end Enclave
