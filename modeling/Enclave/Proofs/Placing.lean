import Enclave.Proofs.Preparing

/-!
# Enclave.Proofs.Placing

Where the places of nodes come from. A node is placed when it is declared, when it is labelled, or
as the site of a call; a dependence places none. So what holds of the places that a program gives
for these holds of every place in its graph (`Graph.placedIn_ofProgram`), and every such place was
given (`Analysis.placedIn_of_prepare`).
-/

namespace Enclave

namespace Graph

/-- The places of all nodes are among these. -/
def PlacedIn (g : Graph) (S : Location → Prop) : Prop :=
  ∀ (v : NodeId) (n : Node), g.nodes[v]? = some n → ∀ place, n.location = some place → S place

variable {g g' : Graph} {S T : Location → Prop} {name : String} {kind : NodeKind}

theorem PlacedIn.mono (hg : g.PlacedIn S) (h : ∀ place, S place → T place) : g.PlacedIn T :=
  fun v n hn place hplace => h place (hg v n hn place hplace)

theorem PlacedIn.addNode (hg : g.PlacedIn S) : (g.addNode name kind).1.PlacedIn S := by
  intro v n hn place hplace
  rcases getElem?_addNode.1 hn with hn | ⟨-, rfl⟩
  · exact hg v n hn place hplace
  · cases hplace

theorem PlacedIn.modifyNode (hg : g.PlacedIn S) {f : Node → Node}
    (hf : ∀ n place, (f n).location = some place → n.location = some place ∨ S place)
    (u : NodeId) : (g.modifyNode u f).PlacedIn S := by
  intro v n hn place hplace
  rcases getElem?_modifyNode.1 hn with ⟨-, hn⟩ | ⟨-, m, hm, rfl⟩
  · exact hg v n hn place hplace
  · rcases hf m place hplace with hold | hnew
    · exact hg v m hm place hold
    · exact hnew

theorem PlacedIn.mention (hg : g.PlacedIn S) (name : String) : (g.mention name).1.PlacedIn S := by
  rw [Graph.mention]
  split
  · exact hg
  · exact hg.addNode

theorem PlacedIn.connect (hg : g.PlacedIn S) (a b : String) (k : DependenceKind)
    (location : Option Location) : (g.connect a b k location).1.PlacedIn S := by
  intro v n hn
  have hmention := (hg.mention a).mention b
  exact hmention v n ((nodes_addEdge _ _ _ k location) ▸ hn)

theorem PlacedIn.ensure (hg : g.PlacedIn S) {v : NodeId}
    (hok : g.ensure name kind = .ok (g', v)) : g'.PlacedIn S := by
  rw [Graph.ensure] at hok
  split at hok
  · cases hok
    exact hg.addNode
  · split at hok
    · cases hok
    · split at hok
      · cases hok
        exact hg
      · cases hok

theorem PlacedIn.locate (hg : g.PlacedIn S) {place : Location} (hplace : S place)
    (hok : g.locate name place = .ok g') : g'.PlacedIn S := by
  obtain ⟨v, -, hok⟩ := bind_eq_ok.1 hok
  cases hok
  refine hg.modifyNode (fun n p hp => ?_) v
  rcases Option.or_eq_some_iff.1 hp with hold | ⟨-, hnew⟩
  · exact .inl hold
  · cases hnew
    exact .inr hplace

theorem PlacedIn.attach (hg : g.PlacedIn S) {x : Label}
    (hx : ∀ place, x.location = some place → S place) (hok : g.attach name x = .ok g') :
    g'.PlacedIn S := by
  obtain ⟨v, -, hok⟩ := bind_eq_ok.1 hok
  cases hok
  refine hg.modifyNode (fun n p hp => ?_) v
  rcases Option.or_eq_some_iff.1 hp with hold | ⟨-, hnew⟩
  · exact .inl hold
  · exact .inr (hx p hnew)

theorem PlacedIn.declare (hg : g.PlacedIn S) {d : Declaration}
    (hd : ∀ source, d.location = some source → S (.ofSource source))
    (hok : g.declare kind d = .ok g') : g'.PlacedIn S := by
  obtain ⟨⟨g₁, v⟩, hensure, hok⟩ := bind_eq_ok.1 hok
  have hg₁ := hg.ensure hensure
  cases hlocation : d.location with
  | none =>
    rw [hlocation] at hok
    cases hok
    exact hg₁
  | some source =>
    rw [hlocation] at hok
    exact hg₁.locate (hd source hlocation) hok

theorem PlacedIn.addLabelled (hg : g.PlacedIn S) {entry : String × Label}
    (hx : ∀ place, entry.2.location = some place → S place)
    (hok : g.addLabelled kind entry = .ok g') : g'.PlacedIn S := by
  obtain ⟨⟨g₁, v⟩, hensure, hok⟩ := bind_eq_ok.1 hok
  exact (hg.ensure hensure).attach hx hok

theorem PlacedIn.callAt (hg : g.PlacedIn S) {caller callee : String} {site : Location}
    (hsite : S site) (hok : g.callAt caller callee name site = .ok g') : g'.PlacedIn S := by
  obtain ⟨⟨g₁, v⟩, hensure, hok⟩ := bind_eq_ok.1 hok
  have htouch : (g₁.modifyNode v fun n => { n with location := some site }).PlacedIn S := by
    refine (hg.ensure hensure).modifyNode (fun n place hplace => ?_) v
    cases hplace
    exact .inr hsite
  rw [← Except.ok.inj hok]
  exact (htouch.connect caller name .call _).connect name callee .call _

theorem PlacedIn.addCall (hg : g.PlacedIn S) {c : CallDecl}
    (hc : ∀ source, c.site = some source → S (.ofSource source))
    (hok : g.addCall c = .ok (.ok g')) : g'.PlacedIn S := by
  rw [Graph.addCall] at hok
  cases hsite : c.site with
  | none =>
    rw [hsite] at hok
    cases hok
    exact hg.connect _ _ _ _
  | some source =>
    rw [hsite] at hok
    obtain ⟨name, -, hok⟩ := bind_eq_ok.1 hok
    exact hg.callAt (hc source hsite) (Except.ok.inj hok)

end Graph

theorem Draft.placedIn_follow {S : Location → Prop} {d : Draft} (hd : d.graph.PlacedIn S)
    {x : Except GraphError Graph} (hx : ∀ g, x = .ok g → g.PlacedIn S) :
    (d.follow x).graph.PlacedIn S := by
  cases x with
  | error e => exact hd
  | ok g => exact hx g rfl

namespace Graph

variable {S : Location → Prop} {ir : IrFacts} {pdg : PdgFacts} {labels : Labels}

theorem placedIn_declared
    (hir : ∀ d ∈ ir.functions ++ ir.globals, ∀ source, d.location = some source →
      S (.ofSource source))
    (hlabels : ∀ e ∈ labels.functions.toList ++ labels.globals.toList, ∀ place,
      e.2.location = some place → S place) :
    (declared ir labels).graph.PlacedIn S := by
  have hdeclare : ∀ kind (ds : List Declaration) (d : Draft), d.graph.PlacedIn S →
      (∀ e ∈ ds, e ∈ ir.functions ++ ir.globals) →
      (ds.foldl (Draft.declare kind) d).graph.PlacedIn S := by
    intro kind ds d hd hds
    refine List.foldlRecOn (motive := fun d : Draft => d.graph.PlacedIn S) ds _ hd
      fun d hd e he => ?_
    exact Draft.placedIn_follow hd fun g hg => hd.declare (hir e (hds e he)) hg
  have hlabel : ∀ kind (es : List (String × Label)) (d : Draft), d.graph.PlacedIn S →
      (∀ e ∈ es, e ∈ labels.functions.toList ++ labels.globals.toList) →
      (es.foldl (Draft.addLabelled kind) d).graph.PlacedIn S := by
    intro kind es d hd hes
    refine List.foldlRecOn (motive := fun d : Draft => d.graph.PlacedIn S) es _ hd
      fun d hd e he => ?_
    exact Draft.placedIn_follow hd fun g hg => hd.addLabelled (hlabels e (hes e he)) hg
  have hempty : (({} : Draft).graph).PlacedIn S := fun v n hn => by simp at hn
  refine hlabel _ _ _ (hlabel _ _ _ (hdeclare _ _ _ (hdeclare _ _ _ hempty ?_) ?_) ?_) ?_
  · exact fun e he => List.mem_append_left _ he
  · exact fun e he => List.mem_append_right _ he
  · exact fun e he => List.mem_append_left _ he
  · exact fun e he => List.mem_append_right _ he

/-- What holds of the places of declarations, labels and calls holds of every place. -/
theorem placedIn_ofProgram {g : Graph}
    (hir : ∀ d ∈ ir.functions ++ ir.globals, ∀ source, d.location = some source →
      S (.ofSource source))
    (hlabels : ∀ e ∈ labels.functions.toList ++ labels.globals.toList, ∀ place,
      e.2.location = some place → S place)
    (hcalls : ∀ c ∈ ir.calls, ∀ source, c.site = some source → S (.ofSource source))
    (h : ofProgram ir pdg labels = .ok (.ok g)) : g.PlacedIn S := by
  obtain ⟨d, hd, h⟩ := bind_eq_ok.1 h
  have hadd : Ends (fun d : Draft => d.graph.PlacedIn S) (fun _ => True)
      (ir.calls.foldlM Draft.addCall (declared ir labels)) := by
    refine Ends.foldlM_of_mem (fun c hc d hd => ?_) (placedIn_declared hir hlabels)
    rw [Draft.addCall]
    cases hr : d.graph.addCall c with
    | error e => trivial
    | ok r =>
      refine Draft.placedIn_follow hd fun g hg => ?_
      subst hg
      exact hd.addCall (hcalls c hc) hr
  have hflow : ∀ kind (fs : List FlowDecl) (g : Graph), g.PlacedIn S →
      (fs.foldl (addFlow kind) g).PlacedIn S := fun kind fs g hg =>
    List.foldlRecOn (motive := fun g : Graph => g.PlacedIn S) fs _ hg
      fun g hg f _ => hg.connect _ _ _ _
  rw [hd] at hadd
  cases herrors : d.errors with
  | cons e errors =>
    rw [herrors] at h
    cases h
  | nil =>
    rw [herrors] at h
    cases h
    exact hflow _ _ _ (hflow _ _ _ hadd)

end Graph

/-- The program gives this place for an element that it declares or labels, or for a call. -/
def Program.Gives (p : Program) (source : Source) : Prop :=
  (∃ e ∈ p.labels.functions.values ++ p.labels.globals.values, e.location = some source) ∨
    (∃ d ∈ p.ir.functions ++ p.ir.globals, d.location = some source) ∨
    ∃ c ∈ p.ir.calls, c.site = some source

instance (p : Program) (source : Source) : Decidable (p.Gives source) :=
  inferInstanceAs (Decidable (_ ∨ _))

theorem LabelDecls.exists_location_of_resolve {d : LabelDecls} {l : Lattice} {labels : Labels}
    (h : d.resolve l = .ok labels) {e : String × Label}
    (he : e ∈ labels.functions.toList ++ labels.globals.toList) {place : Location}
    (hplace : e.2.location = some place) :
    ∃ decl ∈ d.functions.values ++ d.globals.values, ∃ source, decl.location = some source ∧
      place = .ofSource source := by
  obtain ⟨-, rfl⟩ := resolve_eq_ok.1 h
  have hdecl : ∃ decl ∈ d.functions.values ++ d.globals.values, e.2 = ElementDecl.label l decl := by
    rcases List.mem_append.1 he with he | he
    · obtain ⟨entry, hentry, rfl⟩ := List.mem_map.1 he
      exact ⟨entry.2, List.mem_append_left _ (List.mem_map_of_mem hentry), rfl⟩
    · obtain ⟨entry, hentry, rfl⟩ := List.mem_map.1 he
      exact ⟨entry.2, List.mem_append_right _ (List.mem_map_of_mem hentry), rfl⟩
  obtain ⟨decl, hmem, hlabel⟩ := hdecl
  rw [hlabel] at hplace
  obtain ⟨source, hsource, rfl⟩ := Option.map_eq_some_iff.1 hplace
  exact ⟨decl, hmem, source, hsource, rfl⟩

theorem Analysis.placedIn_of_prepare {settings : AnalysisSettings} {program : Program}
    {p : Prepared} (h : prepare settings program = .ok (.ok p)) :
    p.graph.PlacedIn fun place => ∃ source, program.Gives source ∧ place = .ofSource source := by
  obtain ⟨-, hlabels, hgraph, -⟩ := prepare_eq_ok h
  refine Graph.placedIn_ofProgram ?_ ?_ ?_ hgraph
  · exact fun d hd source hsource => ⟨source, .inr (.inl ⟨d, hd, hsource⟩), rfl⟩
  · intro e he place hplace
    obtain ⟨decl, hdecl, source, hsource, rfl⟩ :=
      LabelDecls.exists_location_of_resolve hlabels he hplace
    exact ⟨source, .inl ⟨decl, hdecl, hsource⟩, rfl⟩
  · exact fun c hc source hsource => ⟨source, .inr (.inr ⟨c, hc, hsource⟩), rfl⟩

end Enclave
