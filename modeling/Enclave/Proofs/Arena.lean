import Enclave.Proofs.Store

/-!
# Enclave.Proofs.Arena

Operations on a graph that is stored with its indexes. An `Arena` is a store that is in step, so
that no arena has an index which lags behind; its view is the graph without numbers and indexes.

* `follows_perform`: an operation on a store in step leaves it in step, and ends on it as it ends on
  the graph that it stores.
* `represents_replay`: after every sequence of operations, failed ones among them, the arena is that
  of the graph which the operations are computed to give.
* `kept_ofProgram`: the graph of a whole program is the view of an arena, too.
-/

namespace Enclave

attribute [local instance] lexOrd

namespace Store

variable {s : Store} {u v : NodeId} {name : String}

section Performing

variable {α β : Type}

/-- The store is left in step, and its view is the graph that is left. -/
def Follows : EStateM.Result EditError Store α → EStateM.Result EditError Graph α → Prop
  | .ok a s, .ok b g => a = b ∧ s.InStep ∧ s.view = g
  | .error e s, .error e' g => e = e' ∧ s.InStep ∧ s.view = g
  | _, _ => False

theorem Follows.of_ok {r : EStateM.Result EditError Store α} {a : α} {g : Graph}
    (h : Follows r (.ok a g)) : ∃ t, r = .ok a t ∧ t.InStep ∧ t.view = g := by
  cases r with
  | ok b t =>
    obtain ⟨rfl, ht⟩ := h
    exact ⟨t, rfl, ht⟩
  | error e t => cases h

theorem Follows.of_error {r : EStateM.Result EditError Store α} {e : EditError} {g : Graph}
    (h : Follows r (.error e g)) : ∃ t, r = .error e t ∧ t.InStep ∧ t.view = g := by
  cases r with
  | ok a t => cases h
  | error e' t =>
    obtain ⟨rfl, ht⟩ := h
    exact ⟨t, rfl, ht⟩

theorem Follows.bind {x : Edit Store α} {y : Edit Graph α} {f : α → Edit Store β}
    {f' : α → Edit Graph β} {g : Graph} (h : Follows (x s) (y g))
    (hf : ∀ a (t : Store), t.InStep → Follows (f a t) (f' a t.view)) :
    Follows ((x >>= f) s) ((y >>= f') g) := by
  cases hy : y g with
  | ok a g' =>
    rw [hy] at h
    obtain ⟨t, hx, ht, rfl⟩ := h.of_ok
    rw [Edit.bind_of_ok hx, Edit.bind_of_ok hy]
    exact hf a t ht
  | error e g' =>
    rw [hy] at h
    obtain ⟨t, hx, ht⟩ := h.of_error
    rw [Edit.bind_of_error hx, Edit.bind_of_error hy]
    exact ⟨rfl, ht⟩

theorem follows_add (h : s.InStep) (hnew : s.view.idOf? name = none) (kind : NodeKind) :
    Follows (medium.add name kind s) (Graph.medium.add name kind s.view) := by
  rw [← h.get?_byName] at hnew
  have hadd : medium.add name kind s = .ok s.nodes.size (s.pushNode name kind) := by
    have hcontains : s.byName.contains name = false := by rw [SortedMap.contains, hnew]; rfl
    show (if s.byName.contains name then _ else _ : Edit Store NodeId) s = _
    rw [hcontains]
    rfl
  rw [hadd]
  exact ⟨(size_nodes s).symm, h.pushNode hnew, view_pushNode s name kind⟩

theorem idOf?_eq (h : s.InStep) : medium.idOf? s name = Graph.medium.idOf? s.view name :=
  h.get?_byName name

theorem kindOf?_eq : medium.kindOf? s v = Graph.medium.kindOf? s.view v := by
  rw [Edit.medium_kindOf?, view, Array.getElem?_map, Option.map_map]
  rfl

theorem follows_find (h : s.InStep) (name : String) :
    Follows (medium.find name s) (Graph.medium.find name s.view) := by
  rw [Medium.find, Medium.find, Edit.get_bind, Edit.get_bind, idOf?_eq h]
  cases Graph.medium.idOf? s.view name with
  | none => exact ⟨rfl, h, rfl⟩
  | some v => exact ⟨rfl, h, rfl⟩

theorem follows_ensure (h : s.InStep) (name : String) (kind : NodeKind) :
    Follows (medium.ensure name kind s) (Graph.medium.ensure name kind s.view) := by
  rw [Medium.ensure, Medium.ensure, Edit.get_bind, Edit.get_bind, idOf?_eq h]
  cases hid : Graph.medium.idOf? s.view name with
  | none => exact follows_add h hid kind
  | some v =>
    simp only [kindOf?_eq]
    cases Graph.medium.kindOf? s.view v with
    | none => exact ⟨rfl, h, rfl⟩
    | some existing =>
      dsimp only
      split
      · exact ⟨rfl, h, rfl⟩
      · exact ⟨rfl, h, rfl⟩

theorem exists_mention (h : s.InStep) (name : String) : ∃ t : Store,
    medium.mention name s = .ok (s.view.mention name).2 t ∧ t.InStep ∧
      t.view = (s.view.mention name).1 := by
  have hfollows : Follows (medium.mention name s) (Graph.medium.mention name s.view) := by
    rw [Medium.mention, Medium.mention, Edit.get_bind, Edit.get_bind, idOf?_eq h]
    cases hid : Graph.medium.idOf? s.view name with
    | none => exact follows_add h hid .function
    | some v => exact ⟨rfl, h, rfl⟩
  rw [Edit.mention_eq] at hfollows
  exact hfollows.of_ok

theorem follows_link (h : s.InStep) (hu : u < s.view.nodes.size) (hv : v < s.view.nodes.size)
    (kind : DependenceKind) (location : Option Location) :
    Follows (medium.link u v kind location s) (Graph.medium.link u v kind location s.view) := by
  rw [size_nodes] at hu hv
  have hstored : medium.link u v kind location s =
      .ok (s.addEdge u v kind location).1 (s.addEdge u v kind location).2 := rfl
  have hlink : Graph.medium.link u v kind location s.view =
      .ok (s.view.addEdge u v kind location).2 (s.view.addEdge u v kind location).1 := rfl
  rw [hstored, hlink, addEdge, Graph.addEdge, ← h.get?_byPair]
  cases hpair : s.byPair.get? (u, v) with
  | none =>
    exact ⟨Array.size_map.symm, h.pushEdge hu hv hpair, view_pushEdge s u v kind location⟩
  | some i => exact ⟨rfl, h.absorb i kind location, view_absorb s i kind location⟩

theorem follows_connect (h : s.InStep) (source target : String) (kind : DependenceKind)
    (location : Option Location) :
    Follows (medium.connect source target kind location s)
      (Graph.medium.connect source target kind location s.view) := by
  obtain ⟨t, hsource, ht, hview⟩ := exists_mention h source
  obtain ⟨r, htarget, hr, hview'⟩ := exists_mention ht target
  obtain ⟨⟨hu, -⟩, hv, -⟩ := Graph.mention_ends s.view source target
  rw [hview] at htarget hview'
  rw [Medium.connect, Medium.connect, Edit.bind_of_ok hsource, Edit.bind_of_ok htarget,
    Edit.bind_of_ok Edit.mention_eq, Edit.bind_of_ok Edit.mention_eq, ← hview']
  exact follows_link hr (hview' ▸ hu) (hview' ▸ hv) kind location

theorem follows_touch (h : s.InStep) (v : NodeId) {f : Node → Node}
    (hname : ∀ n, (f n).name = n.name) :
    Follows (medium.touch v f s) (Graph.medium.touch v f s.view) :=
  ⟨rfl, h.modifyNode hname, view_modifyNode s v f⟩

theorem follows_pure (h : s.InStep) (a : α) :
    Follows ((pure a : Edit Store α) s) ((pure a : Edit Graph α) s.view) :=
  ⟨rfl, h, rfl⟩

theorem follows_callAt (h : s.InStep) (caller callee name : String) (site : Location) :
    Follows (medium.callAt caller callee name site s)
      (Graph.medium.callAt caller callee name site s.view) := by
  refine (follows_ensure h name .callSite).bind fun v t ht => ?_
  have htouch := follows_touch ht v (f := fun n => { n with location := some site }) fun _ => rfl
  refine htouch.bind fun _ t ht => ?_
  refine (follows_connect ht caller name .call (some site)).bind fun _ t ht => ?_
  exact (follows_connect ht name callee .call (some site)).bind fun _ t ht => follows_pure ht ()

theorem follows_call (h : s.InStep) (caller callee : String) (site : Option Location) :
    Follows (medium.call caller callee site s) (Graph.medium.call caller callee site s.view) := by
  cases site with
  | none =>
    exact (follows_connect h caller callee .call none).bind fun _ t ht => follows_pure ht ()
  | some site =>
    rw [Medium.call, Medium.call]
    cases Graph.siteName caller callee site with
    | ok name => exact follows_callAt h caller callee name site
    | error cause => exact ⟨rfl, h, rfl⟩

/-- Whatever an operation comes to on a graph, it comes to on the store, and all indexes follow. -/
theorem follows_perform (h : s.InStep) (op : Operation) :
    Follows (op.performOn medium s) (op.perform s.view) := by
  cases op with
  | addFunction name =>
    exact (follows_ensure h name .function).bind fun _ t ht => follows_pure ht ()
  | addGlobal name => exact (follows_ensure h name .global).bind fun _ t ht => follows_pure ht ()
  | locate name place =>
    exact (follows_find h name).bind fun v t ht => follows_touch ht v fun _ => rfl
  | annotate name label =>
    exact (follows_find h name).bind fun v t ht => follows_touch ht v fun _ => rfl
  | connect source target kind location =>
    exact (follows_connect h source target kind location).bind fun _ t ht => follows_pure ht ()
  | call caller callee site => exact follows_call h caller callee site

theorem eq_of_perform_error (h : s.InStep) {op : Operation} {e : EditError} {t : Store}
    (herror : op.performOn medium s = .error e t) : t = s := by
  have hfollows := follows_perform h op
  rw [herror, op.perform_eq] at hfollows
  cases happly : op.apply s.view with
  | ok g =>
    rw [happly] at hfollows
    cases hfollows
  | error e' =>
    rw [happly] at hfollows
    obtain ⟨-, ht, hview⟩ := hfollows
    exact ht.ext_view h hview

end Performing

end Store

/-- A store whose numbers are positions and whose indexes are exact. -/
structure Arena extends Store where
  inStep : toStore.InStep

namespace Arena

instance : EmptyCollection Arena := ⟨⟨{}, Store.inStep_empty⟩⟩

theorem ext_view {a b : Arena} (h : a.view = b.view) : a = b := by
  have hstore := a.inStep.ext_view b.inStep h
  cases a
  cases b
  cases hstore
  rfl

theorem inStep_of_ok {a : Arena} {op : Operation} {x : Unit} {s : Store}
    (h : op.performOn Store.medium a.toStore = .ok x s) : s.InStep := by
  have hfollows := Store.follows_perform a.inStep op
  rw [h] at hfollows
  cases hperform : op.perform a.view with
  | ok y g => exact (hperform ▸ hfollows : Store.Follows (.ok x s) (.ok y g)).2.1
  | error e g => exact (hperform ▸ hfollows : Store.Follows (.ok x s) (.error e g)).elim

def perform (op : Operation) : Edit Arena Unit := fun a =>
  match h : op.performOn Store.medium a.toStore with
  | .ok x s => .ok x ⟨s, inStep_of_ok h⟩
  | .error e s => .error e ⟨s, Store.eq_of_perform_error a.inStep h ▸ a.inStep⟩

/-- The end of an operation that gives the arena of a graph, or fails and changes nothing. -/
def Ends (a : Arena) : Except EditError Graph → EStateM.Result EditError Arena Unit → Prop
  | .ok g, .ok _ b => b.view = g
  | .error e, .error e' b => e = e' ∧ b = a
  | _, _ => False

theorem Ends.of_ok {a : Arena} {g : Graph} {r : EStateM.Result EditError Arena Unit}
    (h : a.Ends (.ok g) r) : ∃ x b, r = .ok x b ∧ b.view = g := by
  cases r with
  | ok x b => exact ⟨x, b, rfl, h⟩
  | error e b => cases h

theorem Ends.of_error {a : Arena} {e : EditError} {r : EStateM.Result EditError Arena Unit}
    (h : a.Ends (.error e) r) : r = .error e a := by
  cases r with
  | ok x b => cases h
  | error e' b =>
    obtain ⟨rfl, rfl⟩ := h
    rfl

theorem ends_perform (a : Arena) (op : Operation) : a.Ends (op.apply a.view) (perform op a) := by
  have hfollows := Store.follows_perform a.inStep op
  rw [op.perform_eq] at hfollows
  rw [perform]
  cases happly : op.apply a.view with
  | ok g =>
    rw [happly] at hfollows
    split
    · rename_i x s hs
      rw [hs] at hfollows
      exact hfollows.2.2
    · rename_i e s hs
      rw [hs] at hfollows
      cases hfollows
  | error e =>
    rw [happly] at hfollows
    split
    · rename_i x s hs
      rw [hs] at hfollows
      cases hfollows
    · rename_i e' s hs
      rw [hs] at hfollows
      exact ⟨hfollows.1.symm, ext_view hfollows.2.2⟩

def step (a : Arena) (op : Operation) : Arena :=
  match perform op a with
  | .ok _ b | .error _ b => b

def replay (ops : List Operation) : Arena := ops.foldl step ∅

theorem view_empty : (∅ : Arena).view = ({} : History).graph :=
  congrArg₂ Graph.mk Array.map_empty Array.map_empty

theorem view_step {a : Arena} {h : History} (hview : a.view = h.graph) (op : Operation) :
    (a.step op).view = (h.step op).graph := by
  have hends := a.ends_perform op
  rw [step, History.step, op.perform_eq, ← hview]
  cases happly : op.apply a.view with
  | ok g =>
    rw [happly] at hends
    obtain ⟨x, b, hperform, hb⟩ := hends.of_ok
    rw [hperform]
    exact hb
  | error e =>
    rw [happly] at hends
    rw [hends.of_error]
    rfl

theorem view_foldl (ops : List Operation) {a : Arena} {h : History} (hview : a.view = h.graph) :
    (ops.foldl step a).view = (ops.foldl History.step h).graph := by
  induction ops generalizing a h with
  | nil => exact hview
  | cons op ops ih => exact ih (view_step hview op)

theorem view_replay (ops : List Operation) : (replay ops).view = (History.replay ops).graph :=
  view_foldl ops view_empty

/--
After every sequence of operations, of which some may have failed, the numbers of nodes and edges
are their positions and all four indexes are exact. The graph in the arena is the one that the
operations are computed to give: it is well represented and holds exactly the dependences noted by
those that succeeded. Whatever operations follow, numbers keep what they stand for; and an operation
gives the arena of the graph that is computed for it, or fails and leaves the whole arena as it was.
-/
theorem represents_replay (ops : List Operation) :
    (replay ops).InStep ∧ (replay ops).view = (History.replay ops).graph ∧
      (replay ops).view.Represents (History.replay ops).log ∧
      (∀ more, (replay ops).view.Grows (replay (ops ++ more)).view) ∧
      ∀ op : Operation,
        (replay ops).Ends (op.apply (replay ops).view) (perform op (replay ops)) := by
  refine ⟨(replay ops).inStep, view_replay ops, ?_, fun more => ?_, (replay ops).ends_perform⟩
  · rw [view_replay]
    exact (History.records_foldl ops {} Graph.records_empty).represents
  · rw [view_replay, view_replay, History.replay, History.replay, List.foldl_append]
    exact History.grows_foldl more _

-- the call is refused, since a function has the name of its site, and no index has an entry of it
example :
    let place : Location := ⟨"a.c", .point ⟨6, 0⟩, .line⟩
    let a := replay [.addFunction "f->g@a.c:7", .call "f" "g" (some place),
      .connect "f" "g" .data (some place), .connect "f" "g" .control none, .addGlobal "f"]
    (a.byName.toList, a.byPair.toList, a.outgoing, a.incoming) =
      ([("f", 1), ("f->g@a.c:7", 0), ("g", 2)], [((1, 2), 0)], #[[], [0], []], #[[], [], [0]]) := by
  decide +kernel

end Arena

namespace Graph

def Kept (g : Graph) : Prop := ∃ a : Arena, a.view = g

namespace Kept

variable {g g' : Graph} {kind : NodeKind}

theorem apply (h : g.Kept) (op : Operation) (hok : op.apply g = .ok g') : g'.Kept := by
  obtain ⟨a, rfl⟩ := h
  have hends := a.ends_perform op
  rw [hok] at hends
  obtain ⟨x, b, -, hb⟩ := hends.of_ok
  exact ⟨b, hb⟩

theorem ensure {name : String} {r : Graph × NodeId} (h : g.Kept) (hkind : kind ≠ .callSite)
    (hok : g.ensure name kind = .ok r) : r.1.Kept := by
  cases kind with
  | function => exact h.apply (.addFunction name) (by rw [Operation.apply, hok]; rfl)
  | global => exact h.apply (.addGlobal name) (by rw [Operation.apply, hok]; rfl)
  | callSite => exact absurd rfl hkind

theorem declare {d : Declaration} (h : g.Kept) (hkind : kind ≠ .callSite)
    (hok : g.declare kind d = .ok g') : g'.Kept := by
  obtain ⟨r, hensure, hok⟩ := bind_eq_ok.1 hok
  have hr := h.ensure hkind hensure
  dsimp only at hok
  split at hok
  · exact hr.apply (.locate d.name _) (by rw [Operation.apply, hok]; rfl)
  · cases hok
    exact hr

theorem addLabelled {entry : String × Label} (h : g.Kept) (hkind : kind ≠ .callSite)
    (hok : g.addLabelled kind entry = .ok g') : g'.Kept := by
  obtain ⟨r, hensure, hok⟩ := bind_eq_ok.1 hok
  dsimp only at hok
  exact (h.ensure hkind hensure).apply (.annotate entry.1 entry.2)
    (by rw [Operation.apply, hok]; rfl)

theorem addCall {c : CallDecl} (h : g.Kept) (hok : g.addCall c = .ok (.ok g')) : g'.Kept := by
  rw [Graph.addCall] at hok
  exact h.apply (.call c.caller c.callee (c.site.map .ofSource)) (by rw [Operation.apply, hok]; rfl)

theorem follow {d : Draft} {x : Except GraphError Graph} (h : d.graph.Kept)
    (hx : ∀ g, x = .ok g → g.Kept) : (d.follow x).graph.Kept := by
  cases x with
  | ok g => exact hx g rfl
  | error e => exact h

end Kept

theorem kept_declared (ir : IrFacts) (labels : Labels) : (declared ir labels).graph.Kept := by
  have hdeclare : ∀ {kind : NodeKind} {ds : List Declaration} {d : Draft}, kind ≠ .callSite →
      d.graph.Kept → (ds.foldl (Draft.declare kind) d).graph.Kept := fun hkind h =>
    List.foldlRecOn _ _ (motive := fun d : Draft => d.graph.Kept) h fun d hd e _ =>
      hd.follow fun _ hok => hd.declare hkind hok
  have hlabel : ∀ {kind : NodeKind} {es : List (String × Label)} {d : Draft}, kind ≠ .callSite →
      d.graph.Kept → (es.foldl (Draft.addLabelled kind) d).graph.Kept := fun hkind h =>
    List.foldlRecOn _ _ (motive := fun d : Draft => d.graph.Kept) h fun d hd e _ =>
      hd.follow fun _ hok => hd.addLabelled hkind hok
  have hempty : ({} : Draft).graph.Kept := ⟨∅, Arena.view_empty⟩
  exact hlabel nofun (hlabel nofun (hdeclare nofun (hdeclare nofun hempty)))

theorem kept_ofProgram {ir : IrFacts} {pdg : PdgFacts} {labels : Labels} {g : Graph}
    (h : ofProgram ir pdg labels = .ok (.ok g)) : g.Kept := by
  obtain ⟨d, hd, -, rfl⟩ := ofProgram_eq_ok.1 h
  have hcalls : Ends (fun d : Draft => d.graph.Kept) (fun _ => True)
      (ir.calls.foldlM Draft.addCall (declared ir labels)) := by
    refine Ends.foldlM_of_mem (fun c _ d hd => ?_) (kept_declared ir labels)
    rw [Draft.addCall]
    cases hcall : d.graph.addCall c with
    | error e => trivial
    | ok x => exact hd.follow fun g hg => hd.addCall (hg ▸ hcall)
  rw [hd] at hcalls
  have hflows : ∀ kind {fs : List FlowDecl} {g : Graph}, g.Kept →
      (fs.foldl (addFlow kind) g).Kept := fun kind _ _ h =>
    List.foldlRecOn _ _ (motive := Kept) h fun g hg f _ =>
      hg.apply (.connect f.source f.target kind (f.location.map .ofSource)) rfl
  exact hflows _ (hflows _ hcalls)

theorem Built.kept {g : Graph} (h : g.Built) : g.Kept := by
  cases h with
  | replayed ops => exact ⟨Arena.replay ops, Arena.view_replay ops⟩
  | ofProgram hok => exact kept_ofProgram hok

end Graph

end Enclave
