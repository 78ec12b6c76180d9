import Enclave.Level.Label
import Enclave.Program.Declared
import Enclave.Proofs.Collections
import Mathlib.Data.List.Induction

/-!
# Enclave.Proofs.Gathering

Putting programs together, one after another, whether or not names are declared again on the way.

The declarations of all programs, in the order in which they are met, make one history. `Holds` says
that what stands is the first declaration of every name in it; each declaration that is added keeps
this, also one that comes too late (`Merged.add_cases`).

* `Program.gather_first`: what any sequence of programs comes to, and which names another program
  would declare again.
-/

namespace Enclave

structure NamedDecl where
  kind : ElementKind
  name : String
  decl : ElementDecl
deriving DecidableEq

namespace NamedDecl

def names (es : List NamedDecl) : List String := es.map (·.name)

theorem names_append (es more : List NamedDecl) : names (es ++ more) = names es ++ names more :=
  List.map_append

/-- The first declaration of a name. -/
def first? (es : List NamedDecl) (name : String) : Option NamedDecl := es.find? (·.name == name)

variable {es : List NamedDecl} {x : NamedDecl} {name : String}

theorem name_of_first? (h : first? es name = some x) : x.name = name := by
  simpa using List.find?_some h

theorem first?_isSome : (first? es name).isSome = true ↔ name ∈ names es := by
  simp [first?, names]

theorem first?_append (es more : List NamedDecl) (name : String) :
    first? (es ++ more) name = (first? es name).or (first? more name) := List.find?_append

theorem first?_concat_of_mem (hx : x.name ∈ names es) (name : String) :
    first? (es ++ [x]) name = first? es name := by
  rw [first?_append]
  cases hold : first? es name with
  | some y => rfl
  | none =>
    have hne : x.name ≠ name := by
      rintro rfl
      rw [← first?_isSome, hold] at hx
      cases hx
    simp [first?, hne]

theorem first?_concat_of_not_mem (hx : x.name ∉ names es) (name : String) :
    first? (es ++ [x]) name = if name = x.name then some x else first? es name := by
  rw [first?_append]
  split
  · rename_i heq
    subst heq
    have hnone : first? es x.name = none := by
      rwa [← first?_isSome, Bool.not_eq_true, Option.isSome_eq_false_iff,
        Option.isNone_iff_eq_none] at hx
    rw [hnone, Option.none_or]
    simp [first?]
  · rename_i hne
    have hlast : first? [x] name = none := by simp [first?, Ne.symm hne]
    rw [hlast, Option.or_none]

end NamedDecl

namespace LabelDecls

def table (d : LabelDecls) : ElementKind → SortedMap String ElementDecl
  | .function => d.functions
  | .global => d.globals

def listing (d : LabelDecls) (kind : ElementKind) : List NamedDecl :=
  (d.table kind).toList.map fun entry => ⟨kind, entry.1, entry.2⟩

def entries (d : LabelDecls) : List NamedDecl := d.listing .function ++ d.listing .global

/-- What stands under a name is its first declaration in the history. -/
def Holds (d : LabelDecls) (es : List NamedDecl) : Prop :=
  ∀ kind name decl, (d.table kind).get? name = some decl ↔
    NamedDecl.first? es name = some ⟨kind, name, decl⟩

variable {d : LabelDecls} {es : List NamedDecl} {name : String} {kind : ElementKind}

theorem names_listing (d : LabelDecls) (kind : ElementKind) :
    NamedDecl.names (d.listing kind) = (d.table kind).keys := by
  rw [NamedDecl.names, listing, List.map_map]
  rfl

theorem declares_iff :
    d.declares name = true ↔ ∃ kind decl, (d.table kind).get? name = some decl := by
  rw [declares, Bool.or_eq_true, SortedMap.contains_iff, SortedMap.contains_iff]
  constructor
  · rintro (⟨decl, hget⟩ | ⟨decl, hget⟩)
    · exact ⟨.function, decl, hget⟩
    · exact ⟨.global, decl, hget⟩
  · rintro ⟨kind, decl, hget⟩
    cases kind with
    | function => exact .inl ⟨decl, hget⟩
    | global => exact .inr ⟨decl, hget⟩

theorem mem_names_entries : name ∈ NamedDecl.names d.entries ↔ d.declares name = true := by
  rw [entries, NamedDecl.names_append, names_listing, names_listing, List.mem_append,
    SortedMap.mem_keys, SortedMap.mem_keys, declares, Bool.or_eq_true]
  rfl

theorem Holds.declares_iff (h : d.Holds es) :
    d.declares name = true ↔ name ∈ NamedDecl.names es := by
  rw [LabelDecls.declares_iff, ← NamedDecl.first?_isSome, Option.isSome_iff_exists]
  constructor
  · rintro ⟨kind, decl, hget⟩
    exact ⟨_, (h kind name decl).1 hget⟩
  · rintro ⟨⟨kind, other, decl⟩, hfirst⟩
    cases NamedDecl.name_of_first? hfirst
    exact ⟨kind, decl, (h kind _ decl).2 hfirst⟩

theorem Holds.not_mem (h : d.Holds es) (hname : d.declares name = false) :
    name ∉ NamedDecl.names es := by
  rw [← h.declares_iff, hname]
  exact Bool.false_ne_true

end LabelDecls

namespace Merged

def add (m : Merged) (x : NamedDecl) : Merged :=
  match x.kind with
  | .function => m.addFunction (x.name, x.decl)
  | .global => m.addGlobal (x.name, x.decl)

/-- A name that is declared is noted as repeated, any other is entered; nothing else changes. -/
theorem add_cases (m : Merged) (x : NamedDecl) :
    (m.decls.declares x.name = true ∧ m.add x = { m with repeated := m.repeated ++ [x.name] }) ∨
    (m.decls.declares x.name = false ∧ (m.add x).repeated = m.repeated ∧
      (m.add x).decls.levels = m.decls.levels ∧
      ∀ kind, (m.add x).decls.table kind =
        if kind = x.kind then (m.decls.table kind).insert x.name x.decl
        else m.decls.table kind) := by
  obtain ⟨kind, name, decl⟩ := x
  cases hname : m.decls.declares name with
  | true =>
    refine .inl ⟨rfl, ?_⟩
    cases kind with
    | function => exact if_pos hname
    | global => exact if_pos hname
  | false =>
    have hnot : ¬ m.decls.declares name = true := by simp [hname]
    cases kind with
    | function =>
      have hadd : m.add ⟨.function, name, decl⟩ =
          { m with decls.functions := m.decls.functions.insert name decl } := if_neg hnot
      rw [hadd]
      refine .inr ⟨rfl, rfl, rfl, fun k => ?_⟩
      cases k <;> rfl
    | global =>
      have hadd : m.add ⟨.global, name, decl⟩ =
          { m with decls.globals := m.decls.globals.insert name decl } := if_neg hnot
      rw [hadd]
      refine .inr ⟨rfl, rfl, rfl, fun k => ?_⟩
      cases k <;> rfl

variable {m : Merged} {es : List NamedDecl} {x : NamedDecl}

theorem holds_add (h : m.decls.Holds es) : (m.add x).decls.Holds (es ++ [x]) := by
  intro kind name decl
  rcases m.add_cases x with ⟨hold, hadd⟩ | ⟨hnew, -, -, htable⟩
  · rw [hadd, NamedDecl.first?_concat_of_mem (h.declares_iff.1 hold)]
    exact h kind name decl
  · rw [htable, NamedDecl.first?_concat_of_not_mem (h.not_mem hnew)]
    by_cases hname : name = x.name
    · subst hname
      rw [if_pos rfl, Option.some_inj]
      by_cases hkind : kind = x.kind
      · subst hkind
        rw [if_pos rfl, SortedMap.get?_insert_self, Option.some_inj]
        exact ⟨fun hdecl => hdecl ▸ rfl, fun hx => congrArg NamedDecl.decl hx⟩
      · -- the name is new, so the table of the other kind does not have it either
        rw [if_neg hkind]
        constructor
        · intro hget
          rw [LabelDecls.declares_iff.2 ⟨kind, decl, hget⟩] at hnew
          cases hnew
        · intro hx
          exact absurd (congrArg NamedDecl.kind hx).symm hkind
    · rw [if_neg hname]
      split
      · rw [SortedMap.get?_insert_of_ne hname]
        exact h kind name decl
      · exact h kind name decl

theorem levels_foldl_add (xs : List NamedDecl) (m : Merged) :
    (xs.foldl add m).decls.levels = m.decls.levels := by
  induction xs generalizing m with
  | nil => rfl
  | cons x xs ih =>
    rw [List.foldl_cons, ih]
    rcases m.add_cases x with ⟨-, hadd⟩ | ⟨-, -, hlevels, -⟩
    · rw [hadd]
    · exact hlevels

theorem holds_foldl_add (xs : List NamedDecl) (h : m.decls.Holds es) :
    (xs.foldl add m).decls.Holds (es ++ xs) := by
  induction xs generalizing m es with
  | nil => simpa using h
  | cons x xs ih => simpa using ih (holds_add (x := x) h)

theorem repeated_foldl_add {xs : List NamedDecl} (h : m.decls.Holds es)
    (hxs : (NamedDecl.names xs).Nodup) :
    (xs.foldl add m).repeated =
      m.repeated ++ (NamedDecl.names xs).filter (· ∈ NamedDecl.names es) := by
  induction xs generalizing m es with
  | nil => simp [NamedDecl.names]
  | cons x xs ih =>
    obtain ⟨hx, hxs⟩ := List.nodup_cons.1 hxs
    have hlater : (NamedDecl.names xs).filter (· ∈ NamedDecl.names (es ++ [x])) =
        (NamedDecl.names xs).filter (· ∈ NamedDecl.names es) := by
      refine List.filter_congr fun name hname => ?_
      have hne : name ≠ x.name := by
        rintro rfl
        exact hx hname
      simp [NamedDecl.names, hne]
    have hcons : NamedDecl.names (x :: xs) = x.name :: NamedDecl.names xs := rfl
    rw [List.foldl_cons, ih (holds_add h) hxs, hlater, hcons, List.filter_cons]
    rcases m.add_cases x with ⟨hold, hadd⟩ | ⟨hnew, hsame, -, -⟩
    · rw [hadd, if_pos (by simpa using h.declares_iff.1 hold), List.append_assoc]
      rfl
    · rw [hsame, if_neg (by simpa using h.not_mem hnew)]

end Merged

namespace LabelDecls

variable {d other : LabelDecls} {es : List NamedDecl}

def mergedLevels (d other : LabelDecls) : Option (List String) :=
  (other.levels.map (d.levels.getD [] ++ ·)).or d.levels

theorem merge_eq (d other : LabelDecls) : d.merge other =
    other.entries.foldl Merged.add { decls := { d with levels := d.mergedLevels other } } := by
  rw [entries, List.foldl_append, listing, List.foldl_map, listing, List.foldl_map, mergedLevels,
    merge]
  cases other.levels <;> rfl

theorem levels_merge (d other : LabelDecls) :
    (d.merge other).decls.levels = d.mergedLevels other := by
  rw [merge_eq, Merged.levels_foldl_add]

theorem Holds.withLevels (h : d.Holds es) (levels : Option (List String)) :
    { d with levels }.Holds es := by
  intro kind
  cases kind with
  | function => exact h .function
  | global => exact h .global

theorem holds_merge (h : d.Holds es) : (d.merge other).decls.Holds (es ++ other.entries) := by
  rw [merge_eq]
  exact Merged.holds_foldl_add _ (h.withLevels _)

theorem repeated_merge (h : d.Holds es) : (d.merge other).repeated =
    other.functions.keys.filter (· ∈ NamedDecl.names es) ++
      other.globals.keys.filter (· ∈ NamedDecl.names (es ++ other.listing .function)) := by
  have hnodup : ∀ kind, (NamedDecl.names (other.listing kind)).Nodup := fun kind => by
    rw [names_listing]
    exact SortedMap.nodup_keys _
  have hstart := h.withLevels (d.mergedLevels other)
  rw [merge_eq, entries, List.foldl_append,
    Merged.repeated_foldl_add (Merged.holds_foldl_add _ hstart) (hnodup .global),
    Merged.repeated_foldl_add hstart (hnodup .function), names_listing, names_listing]
  rfl

end LabelDecls

namespace Program

/-- The programs put together in their order. Names that are declared again are passed over. -/
def gather (ps : List Program) : Program := ps.foldl (fun p q => (p.merge q).1) {}

/-- The declarations of all programs in the order in which they are met. -/
def history (ps : List Program) : List NamedDecl := ps.flatMap (·.labels.entries)

theorem gather_concat (ps : List Program) (p : Program) :
    gather (ps ++ [p]) = ((gather ps).merge p).1 := by
  rw [gather, List.foldl_append]
  rfl

theorem holds_gather (ps : List Program) : (gather ps).labels.Holds (history ps) := by
  induction ps using List.reverseRecOn with
  | nil =>
    intro kind name decl
    have hnone : ((gather []).labels.table kind).get? name = none := by cases kind <;> rfl
    rw [hnone]
    constructor <;> intro h <;> cases h
  | append_singleton ps p ih =>
    rw [gather_concat, history, List.flatMap_append, List.flatMap_singleton]
    exact LabelDecls.holds_merge ih

theorem levels_gather (ps : List Program) :
    ((gather ps).labels.levels = none ↔ ∀ p ∈ ps, p.labels.levels = none) ∧
      (gather ps).labels.levels.getD [] = ps.flatMap fun p => p.labels.levels.getD [] := by
  induction ps using List.reverseRecOn with
  | nil => exact ⟨by simp [gather], rfl⟩
  | append_singleton ps p ih =>
    have hlevels : (gather (ps ++ [p])).labels.levels =
        (gather ps).labels.mergedLevels p.labels := by
      rw [gather_concat]
      exact LabelDecls.levels_merge _ _
    rw [hlevels, LabelDecls.mergedLevels, List.flatMap_append, List.flatMap_singleton, ← ih.2]
    have hall : (∀ q ∈ ps ++ [p], q.labels.levels = none) ↔
        (∀ q ∈ ps, q.labels.levels = none) ∧ p.labels.levels = none := by
      rw [List.forall_mem_append, List.forall_mem_singleton]
    rw [hall, ← ih.1]
    cases hp : p.labels.levels with
    | none => simp
    | some more => simp

theorem facts_gather (ps : List Program) :
    (gather ps).ir = ⟨ps.flatMap (·.ir.functions), ps.flatMap (·.ir.globals),
      ps.flatMap (·.ir.calls), ps.flatMap (·.ir.defUse)⟩ ∧
    (gather ps).pdg = ⟨ps.flatMap (·.pdg.control)⟩ := by
  induction ps using List.reverseRecOn with
  | nil => exact ⟨rfl, rfl⟩
  | append_singleton ps p ih =>
    have hir : (gather (ps ++ [p])).ir = (gather ps).ir.append p.ir := by
      rw [gather_concat]
      rfl
    have hpdg : (gather (ps ++ [p])).pdg = (gather ps).pdg.append p.pdg := by
      rw [gather_concat]
      rfl
    rw [hir, hpdg, ih.1, ih.2]
    simp [IrFacts.append, PdgFacts.append]

def Declared (ps : List Program) (name : String) : Prop :=
  ∃ p ∈ ps, p.labels.declares name = true

theorem mem_names_history {ps : List Program} {name : String} :
    name ∈ NamedDecl.names (history ps) ↔ Declared ps name := by
  rw [NamedDecl.names, history, List.map_flatMap, List.mem_flatMap]
  refine exists_congr fun p => and_congr_right fun _ => ?_
  exact LabelDecls.mem_names_entries

/-- What the programs come to: the first declaration of every name, and all of everything else. -/
structure Gathered (ps : List Program) (p : Program) : Prop where
  disjoint : ∀ name, ¬ (p.labels.functions.contains name = true ∧
    p.labels.globals.contains name = true)
  functions : ∀ name decl, p.labels.functions.get? name = some decl ↔
    NamedDecl.first? (history ps) name = some ⟨.function, name, decl⟩
  globals : ∀ name decl, p.labels.globals.get? name = some decl ↔
    NamedDecl.first? (history ps) name = some ⟨.global, name, decl⟩
  unlisted : p.labels.levels = none ↔ ∀ q ∈ ps, q.labels.levels = none
  levels : ∀ names, p.labels.levels = some names →
    names = ps.flatMap fun q => q.labels.levels.getD []
  ir : p.ir = ⟨ps.flatMap (·.ir.functions), ps.flatMap (·.ir.globals), ps.flatMap (·.ir.calls),
    ps.flatMap (·.ir.defUse)⟩
  pdg : p.pdg = ⟨ps.flatMap (·.pdg.control)⟩

/--
The names that one more program declares again: those of its functions, then those of its globals,
each once and in order. Its own functions count as declared before its globals.
-/
def Repeats (ps : List Program) (next : Program) (names : List String) : Prop :=
  ∃ functions globals : List String, names = functions ++ globals ∧
    functions.Pairwise (compare · · = .lt) ∧ globals.Pairwise (compare · · = .lt) ∧
    (∀ name, name ∈ functions ↔ next.labels.functions.contains name = true ∧ Declared ps name) ∧
    ∀ name, name ∈ globals ↔ next.labels.globals.contains name = true ∧
      (Declared ps name ∨ next.labels.functions.contains name = true)

theorem gathered_gather (ps : List Program) : Gathered ps (gather ps) where
  disjoint name := by
    rintro ⟨hfunction, hglobal⟩
    obtain ⟨decl, hdecl⟩ := SortedMap.contains_iff.1 hfunction
    obtain ⟨decl', hdecl'⟩ := SortedMap.contains_iff.1 hglobal
    have hfirst := (holds_gather ps .function name decl).1 hdecl
    cases hfirst.symm.trans ((holds_gather ps .global name decl').1 hdecl')
  functions := holds_gather ps .function
  globals := holds_gather ps .global
  unlisted := (levels_gather ps).1
  levels names hnames := by
    rw [← (levels_gather ps).2, hnames, Option.getD_some]
  ir := (facts_gather ps).1
  pdg := (facts_gather ps).2

theorem repeats_merge (ps : List Program) (next : Program) :
    Repeats ps next ((gather ps).merge next).2 := by
  refine ⟨_, _, LabelDecls.repeated_merge (holds_gather ps),
    (SortedMap.ascending_keys _).filter _, (SortedMap.ascending_keys _).filter _,
    fun name => ?_, fun name => ?_⟩
  · rw [List.mem_filter, SortedMap.mem_keys, decide_eq_true_iff, mem_names_history]
  · rw [List.mem_filter, SortedMap.mem_keys, decide_eq_true_iff, NamedDecl.names_append,
      List.mem_append, mem_names_history, LabelDecls.names_listing, SortedMap.mem_keys]
    rfl

theorem Repeats.eq_nil_iff {ps : List Program} {next : Program} {names : List String}
    (h : Repeats ps next names) : names = [] ↔
      (∀ name, next.labels.declares name = true → ¬ Declared ps name) ∧
      ∀ name, ¬ (next.labels.functions.contains name = true ∧
        next.labels.globals.contains name = true) := by
  obtain ⟨functions, globals, rfl, -, -, hfunctions, hglobals⟩ := h
  rw [List.append_eq_nil_iff]
  simp only [List.eq_nil_iff_forall_not_mem, hfunctions, hglobals, LabelDecls.declares,
    Bool.or_eq_true]
  constructor
  · rintro ⟨hfunction, hglobal⟩
    refine ⟨?_, fun name hboth => hglobal name ⟨hboth.2, .inr hboth.1⟩⟩
    rintro name (hname | hname) hdeclared
    · exact hfunction name ⟨hname, hdeclared⟩
    · exact hglobal name ⟨hname, .inl hdeclared⟩
  · rintro ⟨hnew, happart⟩
    refine ⟨fun name hname => hnew name (.inl hname.1) hname.2, ?_⟩
    rintro name ⟨hname, hdeclared | hfunction⟩
    · exact hnew name (.inr hname) hdeclared
    · exact happart name ⟨hfunction, hname⟩

/--
Whatever programs are put together, as all of a sequence or as the first of a longer one, and
whatever was declared again among them: every name has its first declaration and nothing else is
lost. The next program repeats just the names that it should not have declared, and none exactly if
there is no such name.
-/
theorem gather_first (ps : List Program) : Gathered ps (gather ps) ∧ ∀ next,
    Repeats ps next ((gather ps).merge next).2 ∧
    (((gather ps).merge next).2 = [] ↔
      (∀ name, next.labels.declares name = true → ¬ Declared ps name) ∧
      ∀ name, ¬ (next.labels.functions.contains name = true ∧
        next.labels.globals.contains name = true)) := by
  refine ⟨gathered_gather ps, fun next => ?_⟩
  exact ⟨repeats_merge ps next, (repeats_merge ps next).eq_nil_iff⟩

/-- A program that declares a name of its own twice. -/
def clashing : Program where
  labels := { levels := some ["purple"]
              functions := .ofList [("f", { level := some "purple" })]
              globals := .ofList [("f", {}), ("g", {})] }

def overlapping : Program where
  labels := { functions := .ofList [("f", {}), ("h", { level := some "orange" })]
              globals := .ofList [("g", {}), ("h", {}), ("k", {})] }

theorem gather_first_clashing :
    Gathered [clashing, overlapping] (gather [clashing, overlapping]) ∧
    Repeats [] clashing ["f"] ∧ Repeats [clashing] overlapping ["f", "g", "h"] := by
  have hself : ((gather []).merge clashing).2 = ["f"] := by decide +kernel
  have hagain : ((gather [clashing]).merge overlapping).2 = ["f", "g", "h"] := by decide +kernel
  refine ⟨(gather_first _).1, ?_, ?_⟩
  · exact hself ▸ ((gather_first []).2 clashing).1
  · exact hagain ▸ ((gather_first [clashing]).2 overlapping).1

end Program

end Enclave
