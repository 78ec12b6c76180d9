import Enclave.Files.Inputs
import Enclave.Proofs.Gathering
import Enclave.Proofs.Sequencing

/-!
# Enclave.Proofs.Loading

Reading the files of an analysis, whatever is found in their place. The files are visited one after
another; `Visits` says which errors they give and which of them declare something. A file that
cannot be used gives one error and is passed over, so that the files after it are judged by what the
usable files before them declare.

What a file declares is not all that it writes: of members with one name in one object of a document
the last counts, and the others are not looked at. So a name that one file annotates twice among its
functions is declared once and gives no error (`load_annotated_twice`).

* `load_complete`: loading ends with the program that all files declare together, or with exactly
  the errors of the visit; it succeeds if and only if every file can be used and no name is declared
  twice, by two files or as a function and a global of one.
-/

namespace Enclave

/-- The files in the order in which they are to be visited: labels, then facts, then dependences. -/
def InputPaths.visited (p : InputPaths) : List (InputKind × String) :=
  p.labels.map (.labels, ·) ++ p.ir.map (.ir, ·) ++ p.pdg.map (.pdg, ·)

theorem InputPaths.toList_eq_visited (p : InputPaths) : p.toList = p.visited := by
  simp [toList, visited, InputKind.all, get]

namespace NamedDecl

theorem nodup_names_append {es more : List NamedDecl} : (names (es ++ more)).Nodup ↔
    (names es).Nodup ∧ (names more).Nodup ∧ ∀ name ∈ names more, name ∉ names es := by
  rw [names_append, List.nodup_append]
  refine and_congr_right fun _ => and_congr_right fun _ => ?_
  constructor
  · intro h name hmore hes
    exact h name hes name hmore rfl
  · rintro h name hes _ hmore rfl
    exact h name hmore hes

end NamedDecl

/-- A name is declared once by a file if it does not stand among functions and globals both. -/
theorem LabelDecls.nodup_names_entries {d : LabelDecls} : (NamedDecl.names d.entries).Nodup ↔
    ∀ name, ¬ (d.functions.contains name = true ∧ d.globals.contains name = true) := by
  rw [entries, NamedDecl.nodup_names_append, names_listing, names_listing]
  have hkeys : ∀ kind, (d.table kind).keys.Nodup := fun kind => SortedMap.nodup_keys _
  simp only [hkeys, true_and, SortedMap.mem_keys]
  exact ⟨fun h name hboth => h name hboth.2 hboth.1, fun h name hg hf => h name ⟨hf, hg⟩⟩

section Writing

open Json

theorem SortedMap.get?_ofList {κ ν : Type} [BEq κ] [LawfulBEq κ] [Ord κ] [Std.TransOrd κ]
    [Std.LawfulEqOrd κ] (es : List (κ × ν)) (k : κ) :
    (SortedMap.ofList es).get? k = es.reverse.lookup k := by
  induction es using List.reverseRecOn with
  | nil => rfl
  | append_singleton es e ih =>
    rw [SortedMap.ofList] at ih ⊢
    rw [List.foldl_concat, SortedMap.get?_insert, ih, List.reverse_concat, List.lookup_cons]
    cases k == e.1 <;> rfl

def Json.asMembers {α : Type} (f : Json → Decoded α) : Json → Decoded (List (String × α))
  | .obj members => do (← namedMembers members).mapM fun m => do return (m.1, ← f m.2)
  | _ => .error (.expected "an object")

theorem Json.asMap_eq {α : Type} (f : Json → Decoded α) (j : Json) :
    asMap f j = do return .ofList (← asMembers f j) := by
  cases j with
  | obj members =>
    rw [asMap, asMembers, bind_assoc]
  | _ => rfl

theorem Json.Record.orElse_asMap {α : Type} {f : Json → Decoded α} {r : Record} {name : String}
    {m : SortedMap String α} (h : r.orElse name ∅ (asMap f) = .ok m) :
    ∃ es, r.orElse name [] (asMembers f) = .ok es ∧ m = .ofList es := by
  rw [orElse] at h ⊢
  split at h
  · rw [asMap_eq] at h
    obtain ⟨es, hes, hm⟩ := bind_eq_ok.1 h
    cases hm
    exact ⟨es, hes, rfl⟩
  · cases h
    exact ⟨[], rfl, rfl⟩

def ElementKind.field : ElementKind → String
  | .function => "functions"
  | .global => "globals"

/-- The annotations of a kind as the text of a labels file writes them, one after another. -/
def LabelDecls.written (text : String) (kind : ElementKind) :
    Decoded (List (String × ElementDecl)) :=
  decode (fun j => do
    let r ← asRecord (fieldsNamed ["levels", "functions", "globals"]) j
    r.orElse kind.field [] (asMembers (ElementDecl.ofJson 2))) text

/-- Of the annotations of a kind that a file writes for a name the last is the one it declares. -/
theorem LabelDecls.get?_table_of_declared {text : String} {part : Program}
    (h : InputKind.labels.declared text = .ok part) (kind : ElementKind) :
    ∃ es, written text kind = .ok es ∧
      ∀ name, (part.labels.table kind).get? name = es.reverse.lookup name := by
  obtain ⟨d, hd, hpart⟩ := bind_eq_ok.1 h
  cases hpart
  rw [decode] at hd
  rw [written, decode]
  split at hd
  · obtain ⟨r, hr, hd⟩ := bind_eq_ok.1 hd
    obtain ⟨levels, -, hd⟩ := bind_eq_ok.1 hd
    obtain ⟨functions, hfunctions, hd⟩ := bind_eq_ok.1 hd
    obtain ⟨globals, hglobals, hd⟩ := bind_eq_ok.1 hd
    cases hd
    rw [hr, ok_bind]
    cases kind with
    | function =>
      obtain ⟨es, hes, rfl⟩ := Record.orElse_asMap hfunctions
      exact ⟨es, hes, SortedMap.get?_ofList es⟩
    | global =>
      obtain ⟨es, hes, rfl⟩ := Record.orElse_asMap hglobals
      exact ⟨es, hes, SortedMap.get?_ofList es⟩
  · cases hd

end Writing

namespace Program

variable {ps : List Program} {next : Program} {names : List String}

/-- One more program repeats nothing if no name is declared twice by it and those before it. -/
theorem Repeats.eq_nil_iff_nodup (h : Repeats ps next names)
    (hps : (NamedDecl.names (history ps)).Nodup) :
    names = [] ↔ (NamedDecl.names (history (ps ++ [next]))).Nodup := by
  have hhistory : history (ps ++ [next]) = history ps ++ next.labels.entries := by
    rw [history, List.flatMap_append, List.flatMap_singleton]
    rfl
  rw [h.eq_nil_iff, hhistory, NamedDecl.nodup_names_append, LabelDecls.nodup_names_entries]
  simp only [LabelDecls.mem_names_entries, mem_names_history, hps, true_and]
  exact and_comm

theorem nodup_history_of_append {more : List Program}
    (h : (NamedDecl.names (history (ps ++ more))).Nodup) :
    (NamedDecl.names (history ps)).Nodup := by
  rw [history, List.flatMap_append] at h
  exact (NamedDecl.nodup_names_append.1 h).1

end Program

namespace Inputs

/-- What a file gives by itself: the program that it declares, or what is wrong with it. -/
inductive Finds (look : String → Reading) : InputKind × String → Except InputError Program → Prop
  | missing {kind path} : look path = .missing → Finds look (kind, path) (.error (.missing path))
  | directory {kind path} :
      look path = .directory → Finds look (kind, path) (.error (.notAFile path))
  | unreadable {kind path cause} : look path = .unreadable cause →
      Finds look (kind, path) (.error (.unreadable path cause))
  | malformed {kind path text cause} : look path = .text text →
      kind.declared text = .error cause → Finds look (kind, path) (.error (.malformed path cause))
  | declares {kind path text part} : look path = .text text → kind.declared text = .ok part →
      Finds look (kind, path) (.ok part)

/--
The errors of files, and the programs declared by those that can be used, together with the programs
`before` them.
-/
inductive Visits (look : String → Reading) :
    List Program → List (InputKind × String) → List InputError → List Program → Prop
  | done {before} : Visits look before [] [] before
  | failed {before file rest errors parts e} : Finds look file (.error e) →
      Visits look before rest errors parts → Visits look before (file :: rest) (e :: errors) parts
  | merged {before file rest errors parts part names} : Finds look file (.ok part) →
      Program.Repeats before part names → Visits look (before ++ [part]) rest errors parts →
      Visits look before (file :: rest)
        (names.map (fun name => .label file.2 (.repeated name)) ++ errors) parts

variable {look : String → Reading} {file : InputKind × String} {files : List (InputKind × String)}
  {before parts : List Program} {errors : List InputError}

theorem finds_iff {r : Except InputError Program} :
    Finds look file r ↔ declaredBy file.1 file.2 (look file.2) = r := by
  obtain ⟨kind, path⟩ := file
  constructor
  · intro h
    cases h with
    | missing hlook => rw [declaredBy, hlook]; rfl
    | directory hlook => rw [declaredBy, hlook]; rfl
    | unreadable hlook => rw [declaredBy, hlook]; rfl
    | malformed hlook htext =>
      rw [declaredBy, hlook, Reading.content, ok_bind, htext]
      rfl
    | declares hlook htext =>
      rw [declaredBy, hlook, Reading.content, ok_bind, htext]
      rfl
  · rintro rfl
    rw [declaredBy]
    cases hlook : look path with
    | missing => exact .missing hlook
    | directory => exact .directory hlook
    | unreadable cause => exact .unreadable hlook
    | text text =>
      rw [Reading.content, ok_bind]
      cases htext : kind.declared text with
      | error cause => exact .malformed hlook htext
      | ok part => exact .declares hlook htext

theorem add_of_error {acc : Program × List InputError} {e : InputError}
    (h : Finds look file (.error e)) : add look acc file = (acc.1, acc.2 ++ [e]) := by
  rw [add, finds_iff.1 h]

theorem add_of_ok {acc : Program × List InputError} {part : Program}
    (h : Finds look file (.ok part)) : add look acc file = ((acc.1.merge part).1,
      acc.2 ++ (acc.1.merge part).2.map fun name => .label file.2 (.repeated name)) := by
  rw [add, finds_iff.1 h]

/-- Loading the files one by one visits them: errors are appended and usable parts merged. -/
theorem exists_visits (look : String → Reading) (files : List (InputKind × String))
    (before : List Program) : ∃ errors parts, Visits look before files errors parts ∧ ∀ es,
      files.foldl (add look) (Program.gather before, es) =
        (Program.gather parts, es ++ errors) := by
  induction files generalizing before with
  | nil => exact ⟨[], before, .done, fun es => by rw [List.foldl_nil, List.append_nil]⟩
  | cons file rest ih =>
    cases hfile : declaredBy file.1 file.2 (look file.2) with
    | error e =>
      have hfinds := finds_iff.2 hfile
      obtain ⟨errors, parts, hvisits, hfold⟩ := ih before
      refine ⟨e :: errors, parts, .failed hfinds hvisits, fun es => ?_⟩
      rw [List.foldl_cons, add_of_error hfinds, hfold, List.append_assoc]
      rfl
    | ok part =>
      have hfinds := finds_iff.2 hfile
      obtain ⟨errors, parts, hvisits, hfold⟩ := ih (before ++ [part])
      have hrepeats := Program.repeats_merge before part
      refine ⟨_, parts, .merged hfinds hrepeats hvisits, fun es => ?_⟩
      rw [List.foldl_cons, add_of_ok hfinds, ← Program.gather_concat, hfold, List.append_assoc]

theorem Visits.errors_eq_nil_iff (h : Visits look before files errors parts)
    (hbefore : (NamedDecl.names (Program.history before)).Nodup) :
    errors = [] ↔
      (∃ declared, List.Forall₂ (fun file part => Finds look file (.ok part)) files declared ∧
        parts = before ++ declared) ∧
      (NamedDecl.names (Program.history parts)).Nodup := by
  induction h with
  | done =>
    refine ⟨fun _ => ⟨⟨[], .nil, (List.append_nil _).symm⟩, hbefore⟩, fun _ => rfl⟩
  | failed hfinds _ _ =>
    refine ⟨fun hnil => absurd hnil (List.cons_ne_nil _ _), ?_⟩
    rintro ⟨⟨declared, hall, -⟩, -⟩
    cases hall with
    | cons hpart _ => cases (finds_iff.1 hfinds).symm.trans (finds_iff.1 hpart)
  | @merged before file rest errors parts part names hfinds hrepeats hvisits ih =>
    rw [List.append_eq_nil_iff, List.map_eq_nil_iff, hrepeats.eq_nil_iff_nodup hbefore]
    constructor
    · rintro ⟨hnodup, rfl⟩
      obtain ⟨⟨declared, hall, hparts⟩, hall'⟩ := (ih hnodup).1 rfl
      exact ⟨⟨part :: declared, .cons hfinds hall, by rw [hparts, List.append_assoc]; rfl⟩, hall'⟩
    · rintro ⟨⟨declared, hall, hparts⟩, hnodup⟩
      cases hall with
      | @cons _ part' _ declared' hpart hrest =>
        cases (finds_iff.1 hfinds).symm.trans (finds_iff.1 hpart)
        rw [List.append_cons] at hparts
        have hfirst := Program.nodup_history_of_append (hparts ▸ hnodup)
        exact ⟨hfirst, (ih hfirst).2 ⟨⟨declared', hrest, hparts⟩, hnodup⟩⟩

theorem foldl_add_without {bad : InputKind × String} {e : InputError}
    (hbad : Finds look bad (.error e)) (before after : List (InputKind × String)) :
    ∃ es es' program,
      (before ++ bad :: after).foldl (add look) ({}, []) = (program, es ++ e :: es') ∧
      (before ++ after).foldl (add look) ({}, []) = (program, es ++ es') := by
  obtain ⟨es, ps, -, hbefore⟩ := exists_visits look before []
  obtain ⟨es', parts, -, hafter⟩ := exists_visits look after ps
  have hstart : before.foldl (add look) ({}, []) = (Program.gather ps, es) := hbefore []
  refine ⟨es, es', Program.gather parts, ?_, ?_⟩
  · rw [List.foldl_append, hstart, List.foldl_cons, add_of_error hbad, hafter, List.append_assoc]
    rfl
  · rw [List.foldl_append, hstart, hafter]

def ending (program : Program) (errors : List InputError) : Except (List InputError) Program :=
  if errors = [] then .ok program else .error errors

theorem load_eq_ending {paths : InputPaths} {program : Program}
    (h : paths.visited.foldl (add look) ({}, []) = (program, errors)) :
    load look paths = ending program errors := by
  rw [load, InputPaths.toList_eq_visited, h]
  cases errors with
  | nil => rfl
  | cons e es => rfl

/--
Whatever is found where the files should be, each of them is visited, and what is wrong with it is
listed in its place: one error for a file that cannot be used, one for every name that a usable file
declares again. If nothing is wrong, which is so exactly if every file can be used and no name is
declared twice, the program is that of all files put together in order. A file that cannot be used
could as well have been left out: all other errors are the same without it.

A name counts as declared once by all that one file writes of it among functions, or among globals:
the last of these annotations is declared, and no error is given for the others.
-/
theorem load_complete (look : String → Reading) (paths : InputPaths) : ∃ errors parts,
    Visits look [] paths.visited errors parts ∧
    load look paths = ending (Program.gather parts) errors ∧
    (errors = [] ↔ List.Forall₂ (fun file part => Finds look file (.ok part)) paths.visited parts ∧
      (NamedDecl.names (Program.history parts)).Nodup) ∧
    (∀ before bad e after, paths.visited = before ++ bad :: after → Finds look bad (.error e) →
      ∃ es es', errors = es ++ e :: es' ∧ ∀ others : InputPaths, others.visited = before ++ after →
        load look others = ending (Program.gather parts) (es ++ es')) ∧
    ∀ path text part, look path = .text text → Finds look (.labels, path) (.ok part) → ∀ kind,
      ∃ written, LabelDecls.written text kind = .ok written ∧
        ∀ name, (part.labels.table kind).get? name = written.reverse.lookup name := by
  obtain ⟨errors, parts, hvisits, hfold⟩ := exists_visits look paths.visited []
  have hall : paths.visited.foldl (add look) ({}, []) = (Program.gather parts, errors) := hfold []
  refine ⟨errors, parts, hvisits, load_eq_ending hall, ?_, ?_, ?_⟩
  · rw [hvisits.errors_eq_nil_iff List.nodup_nil]
    simp
  · intro before bad e after hpaths hbad
    obtain ⟨es, es', program, hwith, hwithout⟩ := foldl_add_without hbad before after
    rw [hpaths, hwith] at hall
    cases hall
    refine ⟨es, es', rfl, fun others hothers => load_eq_ending ?_⟩
    rw [hothers, hwithout]
  · intro path text part htext hpart kind
    cases hpart with
    | declares hlook hdeclared =>
      rw [htext] at hlook
      cases hlook
      exact LabelDecls.get?_table_of_declared hdeclared kind

/-- A labels file that annotates a function twice. -/
def annotatedTwice : String :=
  "\x7b\"functions\":\x7b\"f\":\x7b\"level\":\"purple\"\x7d,\"f\":\x7b\"level\":\"orange\"\x7d\x7d\x7d"

/--
A file that is not there, one that is a directory, one that is no document, and a name twice, in two
files and in one.
-/
def scattered (path : String) : Reading :=
  if path = "first" then .text annotatedTwice
  else if path = "again" then
    .text "\x7b\"globals\":\x7b\"f\":\x7b\x7d,\"g\":\x7b\x7d\x7d\x7d"
  else if path = "folder" then .directory
  else if path = "broken" then .text "[["
  else .missing

def scatteredPaths : InputPaths := ⟨["first", "nowhere", "again"], ["folder"], ["broken"]⟩

theorem load_complete_scattered : ∃ errors parts,
    errors = [.missing "nowhere", .label "again" (.repeated "f"), .notAFile "folder",
      .malformed "broken" .malformed] ∧
    Visits scattered [] scatteredPaths.visited errors parts ∧
    ∃ es es', errors = es ++ .missing "nowhere" :: es' ∧
      load scattered ⟨["first", "again"], ["folder"], ["broken"]⟩ =
        ending (Program.gather parts) (es ++ es') ∧
    ∃ part, Finds scattered (.labels, "first") (.ok part) ∧
      ∃ written, LabelDecls.written annotatedTwice .function = .ok written ∧
        ∀ name, (part.labels.table .function).get? name = written.reverse.lookup name := by
  obtain ⟨errors, parts, hvisits, hload, -, hwithout, hwritten⟩ :=
    load_complete scattered scatteredPaths
  have hrun : load scattered scatteredPaths = .error [.missing "nowhere",
      .label "again" (.repeated "f"), .notAFile "folder", .malformed "broken" .malformed] := by
    decide +kernel
  obtain ⟨es, es', herrors, hothers⟩ := hwithout [(.labels, "first")] (.labels, "nowhere")
    (.missing "nowhere") [(.labels, "again"), (.ir, "folder"), (.pdg, "broken")] rfl (.missing rfl)
  have hfirst : Finds scattered (.labels, "first")
      (.ok { labels := { functions := .ofList [("f", { level := some "orange" })] } }) :=
    finds_iff.2 (by decide +kernel)
  refine ⟨errors, parts, ?_, hvisits, es, es', herrors, hothers _ rfl, _, hfirst,
    hwritten "first" annotatedTwice _ rfl hfirst .function⟩
  rw [hrun, ending] at hload
  split at hload
  · cases hload
  · exact (Except.error.inj hload).symm

/-- A file that annotates a name twice is loaded without an error, with the later annotation. -/
theorem load_annotated_twice :
    LabelDecls.written annotatedTwice .function =
      .ok [("f", { level := some "purple" }), ("f", { level := some "orange" })] ∧
    load (fun _ => .text annotatedTwice) ⟨["a.cle.json"], [], []⟩ =
      .ok { labels := { functions := .ofList [("f", { level := some "orange" })] } } := by
  decide +kernel

end Inputs

end Enclave
