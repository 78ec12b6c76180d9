import Enclave.Level.Label
import Enclave.Proofs.DeclaredOrder

/-!
# Enclave.Proofs.Acceptance

Which declarations are accepted, and what becomes of them.

`WellFormed` says what is asked of a declaration in terms of its own names, without the errors that
are collected or the levels that are looked up; each check has a lemma that says when it finds
nothing. `Resolves` relates a declaration to a label, place by place.

* `LabelDecls.resolve_exact`: declarations are resolved exactly when they are well-formed, and then
  every one into the label that its names stand for.
-/

namespace Enclave

theorem exists_of_rel_some {α β : Type} {r : α → β → Prop} {o : Option α} {b : β}
    (h : Option.Rel r o (some b)) : ∃ a, o = some a ∧ r a b := by
  cases h with
  | some h => exact ⟨_, rfl, h⟩

theorem exists_of_some_rel {α β : Type} {r : α → β → Prop} {a : α} {o : Option β}
    (h : Option.Rel r (some a) o) : ∃ b, o = some b ∧ r a b := by
  cases h with
  | some h => exact ⟨_, rfl, h⟩

theorem rel_map {α β : Type} {r : α → β → Prop} {f : α → β} {o : Option α}
    (h : ∀ a ∈ o, r a (f a)) : Option.Rel r o (o.map f) := by
  cases o with
  | none => exact .none
  | some a => exact .some (h a rfl)

namespace Lattice

/-- The names are levels, and there are some. -/
def Lists (l : Lattice) (names : List String) : Prop := names ≠ [] ∧ ∀ n ∈ names, n ∈ l.names

/-- The levels are those that the names stand for, and every name stands for one. -/
structure Image (l : Lattice) (names : List String) (set : SortedSet Level) : Prop where
  found : ∀ n ∈ names, ∃ a ∈ set.toList, l.lookup? n = some a
  named : ∀ a ∈ set.toList, ∃ n ∈ names, l.lookup? n = some a

/-- Names that stand for one level are one name, so what is listed can be told from its levels. -/
theorem Image.mem_iff {l : Lattice} {names : List String} {set : SortedSet Level}
    (h : l.Image names set) {n : String} {a : Level} (ha : l.lookup? n = some a) :
    a ∈ set.toList ↔ n ∈ names := by
  constructor
  · intro hmem
    obtain ⟨m, hm, hlookup⟩ := h.named a hmem
    rwa [← name_of_lookup? ha, name_of_lookup? hlookup]
  · intro hmem
    obtain ⟨b, hb, hlookup⟩ := h.found n hmem
    rwa [Option.some.inj (ha.symm.trans hlookup)]

end Lattice

namespace TaintDecl

/-- No list is empty or names what is no level, and a return taint comes with the other two. -/
structure WellFormed (l : Lattice) (t : TaintDecl) : Prop where
  returns : ∀ names ∈ t.returns, l.Lists names
  arguments : ∀ names ∈ t.arguments, l.Lists names
  code : ∀ names ∈ t.code, l.Lists names
  complete : t.returns.isSome = true → t.arguments.isSome = true ∧ t.code.isSome = true

/-- Each set of the taint has the levels of the list that is declared in its place. -/
structure Resolves (l : Lattice) (t : TaintDecl) (x : Taint) : Prop where
  returns : Option.Rel l.Image t.returns x.returns
  arguments : Option.Rel l.Image t.arguments x.arguments
  code : Option.Rel l.Image t.code x.code

variable {l : Lattice} {t : TaintDecl}

theorem missing_eq_nil : t.missing = [] ↔
    (t.returns.isSome = true → t.arguments.isSome = true ∧ t.code.isSome = true) := by
  unfold missing
  cases t.returns <;> cases t.arguments <;> cases t.code <;> simp

theorem levelSet_image {names : Option (List String)} (h : ∀ ns ∈ names, l.Lists ns) :
    Option.Rel l.Image names (levelSet l names) := by
  cases names with
  | none => exact .none
  | some names =>
    obtain ⟨hne, hknown⟩ := h names rfl
    have hset : levelSet l (some names) = some (.ofList (names.filterMap l.lookup?)) := by
      cases names with
      | nil => exact absurd rfl hne
      | cons n ns => rfl
    rw [hset]
    refine .some ⟨fun n hn => ?_, fun a ha => ?_⟩
    · obtain ⟨a, ha⟩ := Lattice.exists_lookup?_iff.2 (hknown n hn)
      exact ⟨a, SortedSet.mem_ofList.2 (List.mem_filterMap.2 ⟨n, hn, ha⟩), ha⟩
    · exact List.mem_filterMap.1 (SortedSet.mem_ofList.1 ha)

theorem WellFormed.resolves (h : t.WellFormed l) : t.Resolves l (t.resolve l) :=
  ⟨levelSet_image h.returns, levelSet_image h.arguments, levelSet_image h.code⟩

end TaintDecl

namespace ElementDecl

structure WellFormed (l : Lattice) (e : ElementDecl) : Prop where
  level : ∀ n ∈ e.level, n ∈ l.names
  taint : ∀ t ∈ e.taint, t.WellFormed l
  placed : ∀ n ∈ e.level, ∀ t ∈ e.taint, ∀ codes ∈ t.code, n ∈ codes

/-- The label says what the declaration says, in levels in place of their names. -/
structure Resolves (l : Lattice) (e : ElementDecl) (x : Label) : Prop where
  level : Option.Rel (fun n a => l.lookup? n = some a) e.level x.level
  taint : Option.Rel (TaintDecl.Resolves l) e.taint x.taint
  location : x.location = e.location.map .ofSource

variable {l : Lattice} {kind : ElementKind} {name : String} {e : ElementDecl}

theorem unknownLevels_eq_nil {names : List String} :
    unknownLevels l kind name names = [] ↔ ∀ n ∈ names, n ∈ l.names := by
  rw [unknownLevels, List.map_eq_nil_iff, List.filter_eq_nil_iff]
  refine forall₂_congr fun n _ => ?_
  rw [← Lattice.exists_lookup?_iff, ← Option.isSome_iff_exists, Option.isNone_iff_eq_none,
    Option.isSome_iff_ne_none]

theorem placeErrors_eq_nil {place : TaintPlace} {names : Option (List String)} :
    placeErrors l kind name place names = [] ↔ ∀ ns ∈ names, l.Lists ns := by
  cases names with
  | none => simp [placeErrors]
  | some names =>
    cases names with
    | nil => simp [placeErrors, Lattice.Lists]
    | cons n ns => simp [placeErrors, unknownLevels_eq_nil, Lattice.Lists]

theorem taintErrors_eq_nil {t : TaintDecl} :
    taintErrors l kind name t = [] ↔ t.WellFormed l := by
  simp only [taintErrors, List.append_eq_nil_iff, placeErrors_eq_nil]
  have hmissing : (if t.missing.isEmpty then [] else [LabelError.missingTaints name t.missing]) = []
      ↔ t.missing = [] := by
    cases t.missing <;> simp
  rw [hmissing, TaintDecl.missing_eq_nil]
  constructor
  · rintro ⟨⟨⟨hcomplete, hreturns⟩, harguments⟩, hcode⟩
    exact ⟨hreturns, harguments, hcode, hcomplete⟩
  · rintro ⟨hreturns, harguments, hcode, hcomplete⟩
    exact ⟨⟨⟨hcomplete, hreturns⟩, harguments⟩, hcode⟩

theorem resolves_label (hlevel : ∀ n ∈ e.level, n ∈ l.names)
    (htaint : ∀ t ∈ e.taint, t.WellFormed l) : e.Resolves l (e.label l) := by
  refine ⟨?_, ?_, rfl⟩
  · rw [label]
    cases hname : e.level with
    | none => exact .none
    | some n =>
      obtain ⟨a, ha⟩ := Lattice.exists_lookup?_iff.2 (hlevel n hname)
      rw [Option.bind_some, ha]
      exact .some ha
  · exact rel_map fun t ht => (htaint t ht).resolves

theorem WellFormed.resolves (h : e.WellFormed l) : e.Resolves l (e.label l) :=
  resolves_label h.level h.taint

theorem wellFormed_of_untainted (htaint : e.taint = none) (hlevel : ∀ n ∈ e.level, n ∈ l.names) :
    e.WellFormed l := by
  refine ⟨hlevel, ?_, ?_⟩
  · simp [htaint]
  · simp [htaint]

/-- Once every name is known, holding the level against the code taint is comparing names. -/
theorem placementErrors_eq_nil {x : Label} (h : e.Resolves l x) : placementErrors l name x = [] ↔
    ∀ n ∈ e.level, ∀ t ∈ e.taint, ∀ codes ∈ t.code, n ∈ codes := by
  obtain ⟨level, taint, location⟩ := e
  obtain ⟨level', taint', location'⟩ := x
  obtain ⟨hlevel, htaint, -⟩ := h
  cases hlevel with
  | none => simp [placementErrors]
  | @some n a ha =>
    cases htaint with
    | none => simp [placementErrors]
    | @some t x ht =>
      obtain ⟨returns, arguments, code⟩ := t
      obtain ⟨returns', arguments', code'⟩ := x
      cases ht.code with
      | none => simp [placementErrors]
      | @some codes set himage =>
        simp [placementErrors, SortedSet.contains_iff, himage.mem_iff ha]

theorem errors_eq_nil : e.errors l kind name = [] ↔ e.WellFormed l := by
  rw [errors, List.append_eq_nil_iff, List.append_eq_nil_iff, unknownLevels_eq_nil,
    List.flatMap_eq_nil_iff]
  simp only [Option.mem_toList, taintErrors_eq_nil]
  constructor
  · rintro ⟨⟨hlevel, htaint⟩, hplaced⟩
    exact ⟨hlevel, htaint, (placementErrors_eq_nil (resolves_label hlevel htaint)).1 hplaced⟩
  · rintro ⟨hlevel, htaint, hplaced⟩
    exact ⟨⟨hlevel, htaint⟩, (placementErrors_eq_nil (resolves_label hlevel htaint)).2 hplaced⟩

theorem WellFormed.seed_mem {x : Label} (h : e.WellFormed l) (hx : e.Resolves l x) :
    ∀ a ∈ x.seed?, ∀ t ∈ x.taint, ∀ set ∈ t.code, a ∈ set.toList := by
  intro a ha t ht set hset
  cases hlevel : x.level with
  | some b =>
    -- the declared level is among the declared names of the code taint
    rw [Label.seed?, hlevel, Option.some_or] at ha
    cases ha
    obtain ⟨n, hn, hlookup⟩ := exists_of_rel_some (hlevel ▸ hx.level)
    obtain ⟨decl, hdecl, htaint⟩ := exists_of_rel_some (ht ▸ hx.taint)
    obtain ⟨codes, hcodes, himage⟩ := exists_of_rel_some (hset ▸ htaint.code)
    exact (himage.mem_iff hlookup).2 (h.placed n hn decl hdecl codes hcodes)
  | none =>
    rw [Label.seed?, hlevel, Option.none_or, ht, Option.bind_some, Taint.singleCode?, hset,
      Option.bind_some] at ha
    exact SortedSet.single?_eq_some ha

end ElementDecl

namespace LabelDecls

/-- Every function is declared as it should be, every global with at most a level and a place. -/
structure WellFormed (l : Lattice) (d : LabelDecls) : Prop where
  functions : ∀ name decl, d.functions.get? name = some decl → decl.WellFormed l
  globals : ∀ name decl, d.globals.get? name = some decl →
    decl.taint = none ∧ ∀ n ∈ decl.level, n ∈ l.names

/-- There is a label for each declaration and for nothing else, and no seed outside a code taint. -/
structure Resolves (l : Lattice) (d : LabelDecls) (labels : Labels) : Prop where
  functions : ∀ name, Option.Rel (ElementDecl.Resolves l) (d.functions.get? name)
    (labels.functions.get? name)
  globals : ∀ name, Option.Rel (ElementDecl.Resolves l) (d.globals.get? name)
    (labels.globals.get? name)
  seeds : ∀ name x, labels.functions.get? name = some x →
    ∀ a ∈ x.seed?, ∀ t ∈ x.taint, ∀ set ∈ t.code, a ∈ set.toList

variable {l : Lattice} {d : LabelDecls}

theorem globalErrors_eq_nil {entry : String × ElementDecl} : globalErrors l entry = [] ↔
    entry.2.taint = none ∧ ∀ n ∈ entry.2.level, n ∈ l.names := by
  rw [globalErrors]
  cases htaint : entry.2.taint with
  | some t => simp
  | none =>
    rw [if_neg (by simp), ElementDecl.errors_eq_nil]
    exact ⟨fun h => ⟨rfl, h.level⟩, fun h => ElementDecl.wellFormed_of_untainted htaint h.2⟩

theorem errors_eq_nil : d.errors l = [] ↔ d.WellFormed l := by
  rw [errors, List.append_eq_nil_iff, List.flatMap_eq_nil_iff, List.flatMap_eq_nil_iff]
  simp only [functionErrors, ElementDecl.errors_eq_nil, globalErrors_eq_nil, Prod.forall,
    ← SortedMap.get?_eq_some_iff]
  exact ⟨fun h => ⟨h.1, h.2⟩, fun h => ⟨h.functions, h.globals⟩⟩

theorem resolve_eq_ok {labels : Labels} : d.resolve l = .ok labels ↔ d.WellFormed l ∧
    labels = ⟨d.functions.mapValues (·.label l), d.globals.mapValues (·.label l)⟩ := by
  rw [← errors_eq_nil, resolve]
  split
  · rename_i herrors
    rw [Except.ok.injEq, eq_comm]
    simp [herrors]
  · rename_i hne
    constructor
    · intro h
      cases h
    · intro h
      exact absurd h.1 hne

theorem WellFormed.function (h : d.WellFormed l) {name : String} {decl : ElementDecl}
    (hdecl : (name, decl) ∈ d.functions.toList) : decl.WellFormed l :=
  h.functions name decl (SortedMap.get?_eq_some_iff.2 hdecl)

theorem WellFormed.global (h : d.WellFormed l) {name : String} {decl : ElementDecl}
    (hdecl : (name, decl) ∈ d.globals.toList) : decl.WellFormed l := by
  obtain ⟨htaint, hlevel⟩ := h.globals name decl (SortedMap.get?_eq_some_iff.2 hdecl)
  exact ElementDecl.wellFormed_of_untainted htaint hlevel

theorem WellFormed.resolves (h : d.WellFormed l) :
    d.Resolves l ⟨d.functions.mapValues (·.label l), d.globals.mapValues (·.label l)⟩ where
  functions name := by
    rw [SortedMap.get?_mapValues]
    exact rel_map fun decl hdecl => (h.function (SortedMap.get?_eq_some_iff.1 hdecl)).resolves
  globals name := by
    rw [SortedMap.get?_mapValues]
    exact rel_map fun decl hdecl => (h.global (SortedMap.get?_eq_some_iff.1 hdecl)).resolves
  seeds name x hx := by
    rw [SortedMap.get?_mapValues] at hx
    obtain ⟨decl, hdecl, rfl⟩ := Option.map_eq_some_iff.1 hx
    have hwell := h.functions name decl hdecl
    exact hwell.seed_mem hwell.resolves

/--
Whatever is declared and whatever the lattice, the declarations are resolved exactly when they are
well-formed, each into the label that its names stand for.
-/
theorem resolve_exact (l : Lattice) (d : LabelDecls) :
    ((∃ labels, d.resolve l = .ok labels) ↔ d.WellFormed l) ∧
      ∀ labels, d.resolve l = .ok labels → d.Resolves l labels := by
  refine ⟨⟨?_, fun h => ⟨_, resolve_eq_ok.2 ⟨h, rfl⟩⟩⟩, fun labels h => ?_⟩
  · rintro ⟨labels, h⟩
    exact (resolve_eq_ok.1 h).1
  · obtain ⟨hwell, rfl⟩ := resolve_eq_ok.1 h
    exact hwell.resolves

def tainted : LabelDecls where
  functions := .ofList [
    ("get", { level := some "orange"
              taint := some { returns := some ["purple"], arguments := some ["orange", "purple"]
                              code := some ["purple", "orange"] } }),
    ("wrap", { taint := some { code := some ["purple", "purple"] } })]
  globals := .ofList [("key", { level := some "purple" })]

def misplaced : LabelDecls where
  functions := .ofList [
    ("get", { level := some "orange", taint := some { code := some ["purple"] } })]

theorem resolve_exact_tainted : ∃ l labels, Lattice.flat ["purple", "orange"] = .ok l ∧
    tainted.resolve l = .ok labels ∧ tainted.WellFormed l ∧ tainted.Resolves l labels ∧
    (labels.functions.get? "wrap").bind Label.seed? = l.lookup? "purple" ∧
    ¬ misplaced.WellFormed l := by
  have hrun : (Lattice.flat ["purple", "orange"]).toOption.any (fun l =>
      (misplaced.resolve l).toOption.isNone && (tainted.resolve l).toOption.any fun labels =>
        (labels.functions.get? "wrap").bind Label.seed? == l.lookup? "purple") = true := by
    decide +kernel
  obtain ⟨l, hl, hboth⟩ := exists_ok_of_any hrun
  obtain ⟨hrefused, haccepted⟩ := Bool.and_eq_true_iff.1 hboth
  obtain ⟨labels, hlabels, hseed⟩ := exists_ok_of_any haccepted
  refine ⟨l, labels, hl, hlabels, (resolve_exact l tainted).1.1 ⟨labels, hlabels⟩,
    (resolve_exact l tainted).2 labels hlabels, eq_of_beq hseed, fun hwell => ?_⟩
  obtain ⟨labels', hlabels'⟩ := (resolve_exact l misplaced).1.2 hwell
  rw [hlabels'] at hrefused
  cases hrefused

end LabelDecls

end Enclave
