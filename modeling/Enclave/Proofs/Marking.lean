import Enclave.Proofs.Sweeping

/-!
# Enclave.Proofs.Marking

The components of a graph, found by marking. One array has a mark for each node: the number of its
component, once it is known. The nodes are looked at in turn, and from each that has no mark yet a
search from a stack marks all that edges join to it in either direction.

`Flood` is the search from one node. It takes marks that earlier searches have left for its own, and
goes where a search without such marks goes because none of them is in its way (`Flood.Follows`).

* `Marks.mirrors_run`: marking finds the components that the searches by layers find, and the mark
  of each node is the number of its component.
* `Arena.bothWays_eq`: the two indexes of an arena give the edges that the graph has.
-/

namespace Enclave

open Relation

/-- The marks of all nodes, and the component that is being gathered. -/
structure Flood where
  mark : Array (Option Nat)
  members : List NodeId := []
  stack : List NodeId

namespace Flood

/-- A node without a mark gets that of the component and is put on the stack. -/
def push (index : Nat) (f : Flood) (v : NodeId) : Flood :=
  match f.mark[v]? with
  | some none => { f with mark := f.mark.setIfInBounds v (some index), stack := v :: f.stack }
  | _ => f

/-- The node on top of the stack becomes a member and is left in every direction. -/
def turn (succ : NodeId → List NodeId) (index : Nat) (f : Flood) : Flood :=
  match f.stack with
  | [] => f
  | u :: rest =>
    (succ u).foldl (push index) { f with members := f.members ++ [u], stack := rest }

/-- The flood has marked, over the marks from `before`, what a sweep has seen. -/
structure Follows (count index : Nat) (before : NodeId → Option Nat) (f : Flood) (s : Sweep) :
    Prop where
  marks : ∀ v < count, f.mark[v]? = some (if s.seen.contains v then some index else before v)
  stack : f.stack = s.stack
  members : (f.members ++ f.stack).Perm s.seen.toList

namespace Follows

variable {succ : NodeId → List NodeId} {count index : Nat} {before : NodeId → Option Nat}
  {f : Flood} {s : Sweep} {v root : NodeId} {vs : List NodeId}

theorem insert_perm {set : SortedSet NodeId} (h : v ∉ set.toList) :
    (set.insert v).toList.Perm (v :: set.toList) := by
  refine (List.perm_ext_iff_of_nodup (SortedSet.nodup_toList _)
    (List.nodup_cons.2 ⟨h, SortedSet.nodup_toList _⟩)).2 fun w => ?_
  rw [SortedSet.mem_insert, List.mem_cons]

theorem getElem?_mark {mark : Array (Option Nat)} {o : Option Nat} (h : mark[v]? = some o)
    (w : NodeId) : (mark.setIfInBounds v (some index))[w]? =
      if v = w then some (some index) else mark[w]? := by
  rw [Array.getElem?_setIfInBounds, if_pos (Array.getElem?_eq_some_iff.1 h).1]

theorem push (h : Follows count index before f s) (hv : v < count) (hclear : before v = none) :
    Follows count index before (f.push index v) (s.push v) := by
  have hmark := h.marks v hv
  rw [Flood.push, Sweep.push]
  by_cases hseen : s.seen.contains v = true
  · rw [if_pos hseen] at hmark ⊢
    rw [hmark]
    exact h
  · have hnew : v ∉ s.seen.toList := fun hmem => hseen (SortedSet.contains_iff.2 hmem)
    rw [if_neg hseen, hclear] at hmark
    rw [if_neg hseen, hmark]
    refine ⟨fun w hw => ?_, congrArg (v :: ·) h.stack, ?_⟩
    · have hcontains : (s.seen.insert v).contains w = true ↔ w = v ∨ s.seen.contains w = true := by
        rw [SortedSet.contains_iff, SortedSet.contains_iff, SortedSet.mem_insert]
      rw [getElem?_mark hmark, h.marks w hw]
      simp only [hcontains]
      by_cases hwv : w = v
      · simp [hwv]
      · simp [hwv, Ne.symm hwv]
    · exact List.perm_middle.trans ((h.members.cons v).trans (insert_perm hnew).symm)

theorem foldl_push (h : Follows count index before f s) (hvs : ∀ v ∈ vs, v < count)
    (hclear : ∀ v ∈ vs, before v = none) :
    Follows count index before (vs.foldl (Flood.push index) f) (vs.foldl Sweep.push s) := by
  induction vs generalizing f s with
  | nil => exact h
  | cons v vs ih =>
    rw [List.forall_mem_cons] at hvs hclear
    exact ih (h.push hvs.1 hclear.1) hvs.2 hclear.2

theorem turn (h : Follows count index before f s) (hsucc : ∀ u v, Search.Leads succ u v → v < count)
    (hclear : ∀ u ∈ s.stack, ∀ v, Search.Leads succ u v → before v = none) :
    Follows count index before (f.turn succ index) (s.turn succ) := by
  rw [Flood.turn, Sweep.turn, h.stack]
  cases hstack : s.stack with
  | nil => exact h
  | cons u rest =>
    have hu : u ∈ s.stack := by
      rw [hstack]
      exact List.mem_cons_self
    refine foldl_push ⟨h.marks, rfl, ?_⟩ (hsucc u) (hclear u hu)
    have hmembers := h.members
    rw [h.stack, hstack, List.append_cons] at hmembers
    exact hmembers

/-- As long as nothing that can be reached had a mark, the flood and the sweep go together. -/
theorem turns (h : Follows count index before f s)
    (hsucc : ∀ u v, Search.Leads succ u v → v < count) (hsound : s.Sound succ root)
    (hclear : ∀ v, ReflTransGen (Search.Leads succ) root v → before v = none) (n : Nat) :
    Follows count index before ((Flood.turn succ index)^[n] f) ((Sweep.turn succ)^[n] s) := by
  induction n with
  | zero => exact h
  | succ n ih =>
    rw [Function.iterate_succ_apply', Function.iterate_succ_apply']
    have hn := hsound.turns n
    refine ih.turn hsucc fun u hu v hlead => hclear v ?_
    exact (hn.reached u (hn.waiting hu)).tail hlead

end Follows

end Flood

/-- The marks of all nodes, and the components that were found. -/
structure Marks where
  mark : Array (Option Nat)
  parts : List (List NodeId) := []

namespace Marks

/-- A node without a mark is in a component of its own number, which is gathered in `n` turns. -/
def visit (succ : NodeId → List NodeId) (n : Nat) (m : Marks) (v : NodeId) : Marks :=
  match m.mark[v]? with
  | some none =>
    let index := m.parts.length
    let f := (Flood.turn succ index)^[n]
      { mark := m.mark.setIfInBounds v (some index), stack := [v] }
    ⟨f.mark, m.parts ++ [sortOn id f.members]⟩
  | _ => m

def run (succ : NodeId → List NodeId) (count n : Nat) : Marks :=
  (List.range count).foldl (visit succ n) { mark := .replicate count none }

/-- The mark of a node is the number of the component that it is in. -/
structure Mirrors (count : Nat) (m : Marks) (parts : List (List NodeId)) : Prop where
  found : m.parts = parts
  marks : ∀ v < count, m.mark[v]? = some (parts.findIdx? (·.contains v))

variable {g : Graph} {succ : NodeId → List NodeId} {m : Marks} {parts : List (List NodeId)}
  {v : NodeId} {n : Nat}

theorem sortOn_eq_toList {set : SortedSet NodeId} {members : List NodeId}
    (h : members.Perm set.toList) : sortOn id members = set.toList := by
  have hnodup : members.Nodup := h.nodup_iff.2 set.nodup_toList
  have hsorted := pairwise_lt_sortOn id (List.map_id members ▸ hnodup)
  rw [List.map_id] at hsorted
  refine eq_of_pairwise_of_mem not_lt_of_lt hsorted set.ascending fun v => ?_
  rw [(sortOn_perm id members).mem_iff, h.mem_iff]

/-- A node that no component holds is gathered with all that edges join to it. -/
theorem flood_component (hg : g.Closed) (hsucc : ∀ u v, Search.Leads succ u v ↔ g.Adjacent u v)
    (hv : v < g.nodes.size) (hn : g.nodes.size ≤ n) (index : Nat) {mark : Array (Option Nat)}
    {before : NodeId → Option Nat} (hmark : ∀ w < g.nodes.size, mark[w]? = some (before w))
    (hclear : ∀ w ∈ g.component v, before w = none) {f : Flood}
    (hf : f = (Flood.turn succ index)^[n]
      { mark := mark.setIfInBounds v (some index), stack := [v] }) :
    sortOn id f.members = g.component v ∧ ∀ w < g.nodes.size,
      f.mark[w]? = some (if (g.component v).contains w then some index else before w) := by
  have hleads : Search.Leads succ = g.Adjacent := by
    funext u w
    exact propext (hsucc u w)
  have hbound : ∀ u w, Search.Leads succ u w → w < g.nodes.size := fun u w h =>
    Graph.lt_of_adjacent hg ((hsucc u w).1 h)
  have hself : v ∈ g.component v := (Graph.mem_component hg).2 .refl
  have hreach : ∀ w, w ∈ g.component v ↔ ReflTransGen (Search.Leads succ) v w := by
    intro w
    rw [Graph.mem_component hg, hleads]
  -- the search begins as if its first node had been pushed onto an empty stack
  have hempty : Flood.Follows g.nodes.size index before { mark, stack := [] } ⟨∅, []⟩ :=
    ⟨hmark, rfl, .refl _⟩
  have hfirst := hempty.push hv (hclear v hself)
  have hstart : Flood.push index { mark, stack := [] } v =
      { mark := mark.setIfInBounds v (some index), stack := [v] } := by
    rw [Flood.push, hmark v hv, hclear v hself]
  rw [hstart] at hfirst
  have hall := hfirst.turns hbound (Sweep.Sound.start succ v)
    (fun w hw => hclear w ((hreach w).2 hw)) n
  have hsweep : (Sweep.turn succ)^[n] (Sweep.push ⟨∅, []⟩ v) = ⟨_, []⟩ :=
    Sweep.turns_eq hbound hv hreach hn
  rw [hsweep, ← hf] at hall
  have hperm : f.members.Perm (g.component v) := by
    have hmembers := hall.members
    rwa [hall.stack, List.append_nil] at hmembers
  exact ⟨sortOn_eq_toList hperm, hall.marks⟩

theorem findIdx?_eq_none_iff : parts.findIdx? (·.contains v) = none ↔ ∀ p ∈ parts, v ∉ p := by
  rw [List.findIdx?_eq_none_iff]
  refine forall₂_congr fun p _ => ?_
  rw [← Bool.not_eq_true, List.contains_iff_mem]

theorem Mirrors.visit (h : Mirrors g.nodes.size m parts) (hg : g.Closed)
    (hsucc : ∀ u v, Search.Leads succ u v ↔ g.Adjacent u v) (hparts : g.Parts v parts)
    (hv : v < g.nodes.size) (hn : g.nodes.size ≤ n) :
    Mirrors g.nodes.size (m.visit succ n v)
      (if parts.any (·.contains v) then parts else parts ++ [g.component v]) := by
  have hmark := h.marks v hv
  rw [Marks.visit, hmark]
  by_cases hany : parts.any (·.contains v) = true
  · obtain ⟨i, hi⟩ : ∃ i, parts.findIdx? (·.contains v) = some i := by
      rw [← Option.isSome_iff_exists, List.findIdx?_isSome, hany]
    rw [if_pos hany, hi]
    exact h
  · have hapart : ∀ p ∈ parts, v ∉ p := by simpa using hany
    have hclear : ∀ w ∈ g.component v, parts.findIdx? (·.contains w) = none := by
      intro w hw
      refine findIdx?_eq_none_iff.2 fun p hp hwp => hapart p hp ?_
      obtain ⟨u, -, rfl, -⟩ := hparts.whole p hp
      exact Graph.mem_component_of_mem hg hwp hw
    obtain ⟨hmembers, hmarks⟩ := flood_component hg hsucc hv hn m.parts.length h.marks hclear rfl
    rw [if_neg hany, findIdx?_eq_none_iff.2 hapart]
    refine ⟨congrArg₂ (· ++ [·]) h.found hmembers, fun w hw => ?_⟩
    rw [hmarks w hw, List.findIdx?_append, h.found]
    by_cases hwv : w ∈ g.component v
    · rw [hclear w hwv, Option.none_or]
      simp [hwv]
    · simp [hwv]

/-- Marking over the edges in both directions finds the components. -/
theorem mirrors_run (hg : g.Closed) (hsucc : ∀ u v, Search.Leads succ u v ↔ g.Adjacent u v)
    (hn : g.nodes.size ≤ n) : Mirrors g.nodes.size (run succ g.nodes.size n) g.components := by
  have hall : ∀ bound ≤ g.nodes.size, Mirrors g.nodes.size
      ((List.range bound).foldl (Marks.visit succ n) { mark := .replicate g.nodes.size none })
      (g.componentsBelow bound) := by
    intro bound
    induction bound with
    | zero =>
      intro _
      refine ⟨rfl, fun v hv => ?_⟩
      rw [List.range_zero, List.foldl_nil, Array.getElem?_replicate, if_pos hv]
      rfl
    | succ bound ih =>
      intro hbound
      rw [List.range_succ, List.foldl_append, Graph.componentsBelow_succ]
      exact (ih (Nat.le_of_succ_le hbound)).visit hg hsucc (Graph.parts_componentsBelow hg bound)
        hbound hn
  exact hall _ (Nat.le_refl _)

end Marks

namespace Graph

/-- The nodes one edge away: those that edges lead to, then those that they come from. -/
def bothWays (g : Graph) (u : NodeId) : List NodeId :=
  (g.numberedEdges.filter (·.1.source == u)).map (·.1.target) ++
    (g.numberedEdges.filter (·.1.target == u)).map (·.1.source)

variable {g : Graph} {u v : NodeId}

theorem mem_map_numberedEdges {p : Edge → Bool} {f : Edge → NodeId} :
    v ∈ (g.numberedEdges.filter (p ·.1)).map (f ·.1) ↔
      ∃ e ∈ g.edges.toList, p e = true ∧ f e = v := by
  rw [show (fun e : Edge × EdgeId => f e.1) = f ∘ Prod.fst from rfl, ← List.map_map,
    show (fun e : Edge × EdgeId => p e.1) = p ∘ Prod.fst from rfl, ← List.filter_map, numberedEdges,
    List.zipIdx_map_fst]
  simp only [List.mem_map, List.mem_filter, and_assoc]

theorem leads_bothWays : Search.Leads g.bothWays u v ↔ g.Adjacent u v := by
  rw [Search.Leads, bothWays, List.mem_append,
    mem_map_numberedEdges (p := (·.source == u)) (f := (·.target)),
    mem_map_numberedEdges (p := (·.target == u)) (f := (·.source)), Adjacent, ← exists_or]
  simp only [beq_iff_eq, and_or_left, and_comm (a := Edge.target _ = u)]

theorem parts_run (hg : g.Closed) {n : Nat} (hn : g.nodes.size ≤ n) :
    (Marks.run g.bothWays g.nodes.size n).parts = g.components :=
  (Marks.mirrors_run hg (fun _ _ => leads_bothWays) hn).found

end Graph

namespace Arena

def bothWays (a : Arena) (u : NodeId) : List NodeId :=
  ((a.outgoing[u]?.getD []).filterMap (a.edges[·]?)).map (·.value.target) ++
    ((a.incoming[u]?.getD []).filterMap (a.edges[·]?)).map (·.value.source)

theorem bothWays_eq (a : Arena) : a.bothWays = a.view.bothWays := by
  funext u
  rw [bothWays, a.inStep.outgoing.getD_eq (fun i e he => (a.inStep.ends i e he).1),
    a.inStep.incoming.getD_eq (fun i e he => (a.inStep.ends i e he).2),
    Store.filterMap_edges a.inStep.edges, Store.filterMap_edges a.inStep.edges, List.map_map,
    List.map_map]
  rfl

end Arena

end Enclave
