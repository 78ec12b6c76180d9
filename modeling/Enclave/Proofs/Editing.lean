import Enclave.Proofs.Building

/-!
# Enclave.Proofs.Editing

Building a graph by operations on it, one after another: functions and globals are added, they are
given places and labels, and they are connected. `Operation.performOn` does this in place, in single
changes each of which stays made if a later one fails; a `Medium` says what the changes are made to.

* `perform_eq`: an operation in place comes to what `Operation.apply` computes, and where it fails
  nothing has been changed.
* `edits_of_apply`: what an operation can do to a graph, as single changes (`Graph.Edits`), and
  which dependences it notes there.
-/

namespace Enclave

inductive EditError where
  | duplicate (name : String)
  | refused (cause : GraphError)
  | overflow (cause : Overflow)
deriving DecidableEq

/-- Changes in place to whatever a graph is kept in. An error comes with the state it left. -/
abbrev Edit (σ : Type) := EStateM EditError σ

/-- A way to keep a graph: how it is looked into, and the single changes that can be made to it. -/
structure Medium (σ : Type) where
  idOf? : σ → String → Option NodeId
  kindOf? : σ → NodeId → Option NodeKind
  add : String → NodeKind → Edit σ NodeId
  touch : NodeId → (Node → Node) → Edit σ Unit
  link : NodeId → NodeId → DependenceKind → Option Location → Edit σ EdgeId

namespace Medium

variable {σ : Type} (m : Medium σ)

def find (name : String) : Edit σ NodeId := do
  match m.idOf? (← get) name with
  | some v => return v
  | none => throw (.refused (.unknownNode name))

def ensure (name : String) (kind : NodeKind) : Edit σ NodeId := do
  let s ← get
  match m.idOf? s name with
  | none => m.add name kind
  | some v =>
    match m.kindOf? s v with
    | none => throw (.refused (.unknownNode name))
    | some existing =>
      if existing = kind then return v
      else throw (.refused (.conflictingKind name existing kind))

def mention (name : String) : Edit σ NodeId := do
  match m.idOf? (← get) name with
  | some v => return v
  | none => m.add name .function

def connect (source target : String) (kind : DependenceKind) (location : Option Location) :
    Edit σ EdgeId := do
  let u ← m.mention source
  let v ← m.mention target
  m.link u v kind location

def callAt (caller callee name : String) (site : Location) : Edit σ Unit := do
  let v ← m.ensure name .callSite
  m.touch v fun n => { n with location := some site }
  let _ ← m.connect caller name .call (some site)
  let _ ← m.connect name callee .call (some site)

def call (caller callee : String) : Option Location → Edit σ Unit
  | none => do let _ ← m.connect caller callee .call none
  | some site =>
    match Graph.siteName caller callee site with
    | .ok name => m.callAt caller callee name site
    | .error cause => throw (.overflow cause)

end Medium

def Graph.medium : Medium Graph where
  idOf? := Graph.idOf?
  kindOf? g v := g.nodes[v]?.map (·.kind)
  add name kind := modifyGet fun g => (g.addNode name kind).swap
  touch v f := modify (·.modifyNode v f)
  link u v kind location := modifyGet fun g => (g.addEdge u v kind location).swap

namespace Edit

/-- The end of an operation that changes nothing if it fails. -/
def ending (g : Graph) : Except EditError Graph → EStateM.Result EditError Graph Unit
  | .ok g' => .ok () g'
  | .error e => .error e g

section Binding

variable {σ α β : Type} {s s' : σ} {x : Edit σ α}

theorem bind_of_ok {f : α → Edit σ β} {a : α} (h : x s = .ok a s') : (x >>= f) s = f a s' := by
  show EStateM.bind x f s = _
  rw [EStateM.bind, h]

theorem bind_of_error {f : α → Edit σ β} {e : EditError} (h : x s = .error e s') :
    (x >>= f) s = .error e s' := by
  show EStateM.bind x f s = _
  rw [EStateM.bind, h]

theorem get_bind {f : σ → Edit σ β} : ((get : Edit σ σ) >>= f) s = f s s := rfl

end Binding

variable {g : Graph} {name : String}

theorem medium_idOf? : Graph.medium.idOf? g name = g.idOf? name := rfl

theorem medium_kindOf? {v : NodeId} : Graph.medium.kindOf? g v = g.nodes[v]?.map (·.kind) := rfl

theorem touch_bind {β : Type} {v : NodeId} {f : Node → Node} {k : Unit → Edit Graph β} :
    (Graph.medium.touch v f >>= k) g = k () (g.modifyNode v f) := rfl

theorem find_eq (g : Graph) (name : String) : Graph.medium.find name g =
    match g.find name with
    | .ok v => .ok v g
    | .error e => .error (.refused e) g := by
  rw [Medium.find, get_bind, medium_idOf?, Graph.find]
  cases g.idOf? name <;> rfl

theorem ensure_eq (g : Graph) (name : String) (kind : NodeKind) : Graph.medium.ensure name kind g =
    match g.ensure name kind with
    | .ok (g', v) => .ok v g'
    | .error e => .error (.refused e) g := by
  rw [Medium.ensure, get_bind, medium_idOf?, Graph.ensure]
  cases g.idOf? name with
  | none => rfl
  | some v =>
    cases hn : g.nodes[v]? with
    | none => simp only [medium_kindOf?, hn, Option.map_none]; rfl
    | some n =>
      by_cases hkind : n.kind = kind
      · simp only [medium_kindOf?, hn, Option.map_some, if_pos hkind]; rfl
      · simp only [medium_kindOf?, hn, Option.map_some, if_neg hkind]; rfl

theorem mention_eq : Graph.medium.mention name g = .ok (g.mention name).2 (g.mention name).1 := by
  rw [Medium.mention, get_bind, medium_idOf?, Graph.mention]
  cases g.idOf? name <;> rfl

theorem connect_eq {source target : String} {kind : DependenceKind} {location : Option Location} :
    Graph.medium.connect source target kind location g =
      .ok (g.connect source target kind location).2 (g.connect source target kind location).1 := by
  rw [Medium.connect, bind_of_ok mention_eq, bind_of_ok mention_eq]
  rfl

theorem callAt_eq {caller callee : String} {site : Location} :
    Graph.medium.callAt caller callee name site g =
      ending g ((g.callAt caller callee name site).mapError .refused) := by
  have hensure := ensure_eq g name .callSite
  rw [Medium.callAt, Graph.callAt]
  cases hr : g.ensure name .callSite with
  | error e =>
    rw [hr] at hensure
    rw [bind_of_error hensure]
    rfl
  | ok r =>
    rw [hr] at hensure
    rw [bind_of_ok hensure, touch_bind, bind_of_ok connect_eq, bind_of_ok connect_eq]
    rfl

theorem call_eq {caller callee : String} {site : Option Location} :
    Graph.medium.call caller callee site g = ending g
      (match g.call caller callee site with
      | .ok result => result.mapError .refused
      | .error cause => .error (.overflow cause)) := by
  cases site with
  | none =>
    rw [Medium.call, bind_of_ok connect_eq]
    rfl
  | some site =>
    rw [Medium.call, Graph.call]
    cases Graph.siteName caller callee site with
    | error cause => rfl
    | ok name => exact callAt_eq

/-- The single changes, done one by one, are refused before the first of them if at all. -/
theorem ensure_ending {kind : NodeKind} :
    (do let _ ← Graph.medium.ensure name kind : Edit Graph Unit) g =
      ending g (((g.ensure name kind).map (·.1)).mapError .refused) := by
  have hensure := ensure_eq g name kind
  cases hr : g.ensure name kind with
  | error e =>
    rw [hr] at hensure
    rw [bind_of_error hensure]
    rfl
  | ok r =>
    rw [hr] at hensure
    rw [bind_of_ok hensure]
    rfl

theorem touch_ending {f : Node → Node} :
    (do let v ← Graph.medium.find name; Graph.medium.touch v f : Edit Graph Unit) g =
      ending g (((g.find name).map fun v => g.modifyNode v f).mapError .refused) := by
  have hfind := find_eq g name
  cases hr : g.find name with
  | error e =>
    rw [hr] at hfind
    rw [bind_of_error hfind]
    rfl
  | ok v =>
    rw [hr] at hfind
    rw [bind_of_ok hfind]
    rfl

end Edit

/-- What a client can ask of a graph under construction. -/
inductive Operation where
  | addFunction (name : String)
  | addGlobal (name : String)
  | locate (name : String) (place : Location)
  | annotate (name : String) (label : Label)
  | connect (source target : String) (kind : DependenceKind) (location : Option Location)
  | call (caller callee : String) (site : Option Location)

namespace Operation

def performOn {σ : Type} (m : Medium σ) : Operation → Edit σ Unit
  | addFunction name => do let _ ← m.ensure name .function
  | addGlobal name => do let _ ← m.ensure name .global
  | locate name place => do
    let v ← m.find name
    m.touch v fun n => { n with location := n.location.or (some place) }
  | annotate name label => do
    let v ← m.find name
    m.touch v fun n => { n with location := n.location.or label.location, label := some label }
  | connect source target kind location => do let _ ← m.connect source target kind location
  | call caller callee site => m.call caller callee site

def perform : Operation → Edit Graph Unit := performOn Graph.medium

def apply (g : Graph) : Operation → Except EditError Graph
  | addFunction name => ((g.ensure name .function).map (·.1)).mapError .refused
  | addGlobal name => ((g.ensure name .global).map (·.1)).mapError .refused
  | locate name place => (g.locate name place).mapError .refused
  | annotate name label => (g.attach name label).mapError .refused
  | connect source target kind location => .ok (g.connect source target kind location).1
  | call caller callee site =>
    match g.call caller callee site with
    | .ok result => result.mapError .refused
    | .error cause => .error (.overflow cause)

/-- Operations in place give the graph that is computed, or an error and the graph as it was. -/
theorem perform_eq (op : Operation) (g : Graph) : op.perform g = Edit.ending g (op.apply g) := by
  cases op with
  | addFunction name => exact Edit.ensure_ending
  | addGlobal name => exact Edit.ensure_ending
  | locate name place => exact Edit.touch_ending
  | annotate name label => exact Edit.touch_ending
  | connect source target kind location =>
    rw [perform, performOn, Edit.bind_of_ok Edit.connect_eq]
    rfl
  | call caller callee site => exact Edit.call_eq

end Operation

structure Link where
  source : String
  target : String
  kind : DependenceKind
  location : Option Location := none
deriving DecidableEq

namespace Operation

/-- The dependences that the operation notes if it succeeds, the last of them first. -/
def links : Operation → List Link
  | connect source target kind location => [⟨source, target, kind, location⟩]
  | call caller callee none => [⟨caller, callee, .call, none⟩]
  | call caller callee (some site) =>
    match Graph.siteName caller callee site with
    | .ok name => [⟨name, callee, .call, some site⟩, ⟨caller, name, .call, some site⟩]
    | .error _ => []
  | _ => []

end Operation

namespace Graph

/-- What single changes make of a graph, with the dependences noted, the last of them first. -/
inductive Edits (g : Graph) : List Link → Graph → Prop
  | refl : Edits g [] g
  | node {log : List Link} {h : Graph} {name : String} {kind : NodeKind} : Edits g log h →
      h.idOf? name = none → Edits g log (h.addNode name kind).1
  | touch {log : List Link} {h : Graph} {v : NodeId} {f : Node → Node} : Edits g log h →
      (∀ m, (f m).name = m.name) → (∀ m, (f m).kind = m.kind) → Edits g log (h.modifyNode v f)
  | link {log : List Link} {h : Graph} {u v : NodeId} (kind : DependenceKind)
      (location : Option Location) : Edits g log h → u < h.nodes.size → v < h.nodes.size →
      Edits g (⟨h.name u, h.name v, kind, location⟩ :: log) (h.addEdge u v kind location).1

namespace Edits

variable {g h h' : Graph} {log : List Link} {name : String}

theorem mention (hg : g.Edits log h) (name : String) : g.Edits log (h.mention name).1 := by
  rw [Graph.mention]
  cases hid : h.idOf? name with
  | none => exact hg.node hid
  | some v => exact hg

theorem connect (hg : g.Edits log h) (a b : String) (kind : DependenceKind)
    (location : Option Location) :
    g.Edits (⟨a, b, kind, location⟩ :: log) (h.connect a b kind location).1 := by
  obtain ⟨⟨hu, hname⟩, hv, hname'⟩ := mention_ends h a b
  have hlink := ((hg.mention a).mention b).link kind location hu hv
  rwa [hname, hname'] at hlink

theorem ensure {kind : NodeKind} {v : NodeId} (hg : g.Edits log h)
    (hok : h.ensure name kind = .ok (h', v)) : g.Edits log h' := by
  rw [Graph.ensure] at hok
  cases hid : h.idOf? name with
  | none =>
    rw [hid] at hok
    cases hok
    exact hg.node hid
  | some w =>
    obtain ⟨n, hn, -⟩ := getElem?_of_idOf? hid
    rw [hid] at hok
    simp only [hn] at hok
    split at hok
    · cases hok
      exact hg
    · cases hok

theorem callAt {caller callee : String} {site : Location} (hg : g.Edits log h)
    (hok : h.callAt caller callee name site = .ok h') :
    g.Edits (⟨name, callee, .call, some site⟩ :: ⟨caller, name, .call, some site⟩ :: log) h' := by
  obtain ⟨⟨h₁, v⟩, hensure, hok⟩ := bind_eq_ok.1 hok
  have htouch : g.Edits log (h₁.modifyNode v fun n => { n with location := some site }) :=
    .touch (hg.ensure hensure) (fun _ => rfl) fun _ => rfl
  rw [← Except.ok.inj hok]
  exact (htouch.connect caller name .call _).connect name callee .call _

end Edits

end Graph

namespace Operation

theorem mapError_eq_ok {ε ε' α : Type} {f : ε → ε'} {x : Except ε α} {a : α} :
    x.mapError f = .ok a ↔ x = .ok a := by
  cases x <;> simp [Except.mapError]

theorem edits_of_apply {op : Operation} {g g' : Graph} (hok : op.apply g = .ok g') :
    g.Edits op.links g' := by
  have hensure : ∀ name kind,
      ((g.ensure name kind).map (·.1)).mapError EditError.refused = .ok g' → g.Edits [] g' := by
    intro name kind hok
    have hmap := mapError_eq_ok.1 hok
    cases hr : g.ensure name kind with
    | error e =>
      rw [hr] at hmap
      cases hmap
    | ok r =>
      rw [hr] at hmap
      cases hmap
      exact Graph.Edits.refl.ensure hr
  cases op with
  | addFunction name => exact hensure name .function hok
  | addGlobal name => exact hensure name .global hok
  | locate name place =>
    obtain ⟨v, -, hok⟩ := bind_eq_ok.1 (mapError_eq_ok.1 hok)
    cases hok
    exact .touch .refl (fun _ => rfl) fun _ => rfl
  | annotate name label =>
    obtain ⟨v, -, hok⟩ := bind_eq_ok.1 (mapError_eq_ok.1 hok)
    cases hok
    exact .touch .refl (fun _ => rfl) fun _ => rfl
  | connect source target kind location =>
    cases hok
    exact Graph.Edits.refl.connect source target kind location
  | call caller callee site =>
    rw [apply] at hok
    split at hok
    · rename_i result hcall
      have hresult := mapError_eq_ok.1 hok
      subst hresult
      cases site with
      | none =>
        cases hcall
        exact Graph.Edits.refl.connect caller callee .call none
      | some site =>
        obtain ⟨name, hname, hcall⟩ := bind_eq_ok.1 hcall
        simp only [links, hname]
        exact Graph.Edits.refl.callAt (Except.ok.inj hcall)
    · cases hok

end Operation

end Enclave
