import Enclave.Report.Diagnostics
import Enclave.Proofs.Collections
import Enclave.Proofs.Paths
import Enclave.Proofs.Sequencing
import Mathlib.Data.List.Nodup

/-!
# Enclave.Proofs.Publishing

Which documents are told of a conflict, and of what, for any function that gives paths their URIs.
Diagnostics are gathered by the files of their sources as these are written, before a file has its
URI; so whether a document is told once depends on whether its URI comes from one file only.

Two properties of the function from paths to URIs have names: `Total` and `Faithful`. The function
that is used has both: it writes the steps which lead to a file, and their encoding can be undone.

* `publications_per_document`: every source is reported once at its document; a document is
  published once if and only if the sources write its path in one way.
-/

namespace Enclave

namespace DocumentUri

section Encoding

def digitValue (c : Char) : Nat := if c.toNat < 65 then c.toNat - 48 else c.toNat - 55

def decode : List Char → List UInt8
  | '%' :: high :: low :: rest => .ofNat (16 * digitValue high + digitValue low) :: decode rest
  | c :: rest => .ofNat c.toNat :: decode rest
  | [] => []

theorem digitValue_upperHexDigit : ∀ n < 16, digitValue (upperHexDigit n) = n := by decide

theorem upperHexDigit_ne_slash : ∀ n < 16, upperHexDigit n ≠ '/' := by decide

theorem toNat_ofNat_of_plain {b : UInt8} (h : mustEncode b = false) :
    (Char.ofNat b.toNat).toNat = b.toNat := by
  have hlow : b.toNat < 127 := by
    simp only [mustEncode, Bool.or_eq_false_iff, decide_eq_false_iff_not] at h
    exact Nat.not_le.1 h.1.2
  have hvalid : b.toNat.isValidChar := Or.inl (by omega)
  rw [Char.ofNat, dif_pos hvalid]
  rfl

theorem ofNat_ne_of_plain {b : UInt8} (h : mustEncode b = false) {c : Char}
    (hc : mustEncode (.ofNat c.toNat) = true) : Char.ofNat b.toNat ≠ c := by
  rintro rfl
  rw [toNat_ofNat_of_plain h, UInt8.ofNat_toNat, h] at hc
  cases hc

theorem decode_encodeByte (b : UInt8) (rest : List Char) :
    decode (encodeByte b ++ rest) = b :: decode rest := by
  rw [encodeByte]
  split
  · have hb := b.toNat_lt
    have hhigh := digitValue_upperHexDigit (b.toNat / 16) (by omega)
    have hlow := digitValue_upperHexDigit (b.toNat % 16) (by omega)
    have hbyte : 16 * (b.toNat / 16) + b.toNat % 16 = b.toNat := by omega
    simp only [List.cons_append, List.nil_append, decode, hhigh, hlow, hbyte, UInt8.ofNat_toNat]
  · rename_i hplain
    rw [Bool.not_eq_true] at hplain
    have hne : Char.ofNat b.toNat ≠ '%' := ofNat_ne_of_plain hplain (by decide +kernel)
    rw [List.singleton_append, decode.eq_2 _ _ fun _ _ _ heq _ => hne heq,
      toNat_ofNat_of_plain hplain, UInt8.ofNat_toNat]

theorem decode_flatMap (bytes : List UInt8) : decode (bytes.flatMap encodeByte) = bytes := by
  induction bytes with
  | nil => rfl
  | cons b bytes ih => rw [List.flatMap_cons, decode_encodeByte, ih]

theorem toList_loop (bytes : ByteArray) (i : Nat) (read : List UInt8) :
    ByteArray.toList.loop bytes i read = read.reverse ++ bytes.data.toList.drop i := by
  fun_induction ByteArray.toList.loop bytes i read with
  | case1 i read h ih =>
    have hget : bytes.get! i = bytes.data.toList[i] := getElem!_pos bytes.data i h
    rw [ih, List.reverse_cons, List.append_assoc, List.singleton_append, hget,
      ← List.drop_eq_getElem_cons]
  | case2 i read h =>
    rw [List.drop_eq_nil_of_le (Nat.not_lt.1 h), List.append_nil]

theorem encode_injective {s t : String} (h : encode s = encode t) : s = t := by
  have hbytes : s.toUTF8.toList = t.toUTF8.toList := by
    rw [encode, encode, String.ofList_inj] at h
    rw [← decode_flatMap s.toUTF8.toList, h, decode_flatMap]
  rw [ByteArray.toList, ByteArray.toList, toList_loop, toList_loop] at hbytes
  have hdata : s.toUTF8 = t.toUTF8 := ByteArray.ext (Array.toList_inj.1 hbytes)
  exact String.toByteArray_inj.1 hdata

theorem slash_notMem_encode (s : String) : '/' ∉ (encode s).toList := by
  rw [encode, String.toList_ofList]
  intro h
  obtain ⟨b, -, hb⟩ := List.mem_flatMap.1 h
  rw [encodeByte] at hb
  split at hb
  · have hlt := b.toNat_lt
    simp only [List.mem_cons, List.not_mem_nil, or_false] at hb
    rcases hb with hb | hb | hb
    · cases hb
    · exact upperHexDigit_ne_slash _ (by omega) hb.symm
    · exact upperHexDigit_ne_slash _ (by omega) hb.symm
  · rename_i hplain
    rw [Bool.not_eq_true] at hplain
    exact ofNat_ne_of_plain hplain (by decide +kernel) (List.mem_singleton.1 hb).symm

end Encoding

section Places

theorem splitOn_flatMap {first : List Char} {rest : List (List Char)} (hfirst : '/' ∉ first)
    (hrest : ∀ part ∈ rest, '/' ∉ part) :
    (first ++ rest.flatMap ('/' :: ·)).splitOn '/' = first :: rest := by
  induction rest generalizing first with
  | nil => rw [List.flatMap_nil, List.append_nil, List.splitOn_eq_singleton hfirst]
  | cons part rest ih =>
    obtain ⟨hpart, hrest⟩ := List.forall_mem_cons.1 hrest
    have hparts := ih hpart hrest
    rw [List.flatMap_cons, List.cons_append, List.splitOn_append_cons_self, hparts,
      List.splitOn_eq_singleton hfirst, List.singleton_append]

/-- The text of steps from the root, each after a slash. -/
def written (steps : List String) : String :=
  String.join (steps.map fun step => "/" ++ encode step)

theorem toList_written (steps : List String) : (written steps).toList =
    (steps.map fun step => (encode step).toList).flatMap ('/' :: ·) := by
  rw [written, String.toList_join, List.flatMap_map, List.flatMap_map]
  simp only [String.toList_append]
  rfl

theorem written_injective {steps steps' : List String} (h : written steps = written steps') :
    steps = steps' := by
  have hsplit : ∀ steps : List String, (written steps).toList.splitOn '/' =
      [] :: steps.map fun step => (encode step).toList := by
    intro steps
    have hslash : ∀ part ∈ steps.map fun step => (encode step).toList, '/' ∉ part := by
      intro part hpart
      obtain ⟨step, -, rfl⟩ := List.mem_map.1 hpart
      exact slash_notMem_encode step
    rw [toList_written]
    exact splitOn_flatMap List.not_mem_nil hslash
  have hparts := hsplit steps
  rw [h, hsplit steps', List.cons.injEq] at hparts
  refine List.map_injective_iff.2 (fun step step' heq => ?_) hparts.2.symm
  exact encode_injective (String.toList_inj.1 heq)

/--
The URI of the place that `steps` lead to from the root. The root itself is written as one step
without a name.
-/
def ofSteps (steps : List String) : DocumentUri :=
  ⟨"file://" ++ written (if steps = [] then [""] else steps)⟩

/-- Steps that all have a name can be read off their URI. -/
theorem ofSteps_injective {steps steps' : List String} (hne : "" ∉ steps) (hne' : "" ∉ steps')
    (h : ofSteps steps = ofSteps steps') : steps = steps' := by
  have heq := written_injective ((String.append_right_inj _).1 (congrArg text h))
  split at heq
  · rename_i hnil
    split at heq
    · rename_i hnil'
      rw [hnil, hnil']
    · rw [← heq] at hne'
      exact absurd List.mem_cons_self hne'
  · split at heq
    · rw [heq] at hne
      exact absurd List.mem_cons_self hne
    · exact heq

theorem encode_empty : encode "" = "" := by
  rw [encode, ByteArray.toList, toList_loop]
  rfl

theorem ofPath?_of_absolute {path : String} (h : Path.isAbsolute path = true) :
    ofPath? path = some (ofSteps (Path.steps path)) := by
  rw [ofPath?, Path.components_of_absolute h, ofSteps]
  cases Path.steps path with
  | nil =>
    simp only [if_true, written, List.map_singleton, encode_empty]
    rfl
  | cons step steps =>
    simp only [List.map_cons, List.map_map, Function.comp_def, Path.Component.name_ofName]
    rfl

/-- Every absolute path has a URI. -/
def Total (toUri : String → Option DocumentUri) : Prop :=
  ∀ path, Path.isAbsolute path = true → (toUri path).isSome = true

/-- Absolute paths have one URI exactly if they lead to one place. -/
def Faithful (toUri : String → Option DocumentUri) : Prop :=
  ∀ path path', Path.isAbsolute path = true → Path.isAbsolute path' = true →
    (toUri path = toUri path' ↔ Path.same path path' = true)

theorem total_ofPath? : Total ofPath? := by
  intro path hpath
  rw [ofPath?_of_absolute hpath]
  rfl

theorem faithful_ofPath? : Faithful ofPath? := by
  intro path path' hpath hpath'
  have hnamed : ∀ path : String, "" ∉ Path.steps path := fun path hmem =>
    Path.ne_empty_of_mem_parts (List.mem_filter.1 hmem).1 rfl
  have hname : Function.Injective Path.Component.ofName :=
    Function.LeftInverse.injective Path.Component.name_ofName
  rw [ofPath?_of_absolute hpath, ofPath?_of_absolute hpath', Option.some.injEq, Path.same,
    beq_iff_eq, Path.components_of_absolute hpath, Path.components_of_absolute hpath',
    List.cons.injEq, (List.map_injective_iff.2 hname).eq_iff]
  constructor
  · intro heq
    exact ⟨rfl, ofSteps_injective (hnamed _) (hnamed _) heq⟩
  · rintro ⟨-, heq⟩
    rw [heq]

end Places

end DocumentUri

section Grouping

variable {κ ν : Type} [BEq κ] [LawfulBEq κ]

namespace SortedMap

variable [Ord κ] [Std.TransOrd κ] [Std.LawfulEqOrd κ]

/-- Values gathered one by one stand under their key, in the order in which they came. -/
theorem getD_get?_gather (es : List (κ × ν)) (m : SortedMap κ (List ν)) (k : κ) :
    ((es.foldl (fun m e => m.insert e.1 ((m.get? e.1).getD [] ++ [e.2])) m).get? k).getD [] =
      (m.get? k).getD [] ++ (es.filter (·.1 == k)).map (·.2) := by
  induction es generalizing m with
  | nil => simp
  | cons e es ih =>
    rw [List.foldl_cons, ih, get?_insert, List.filter_cons, BEq.comm]
    cases hk : e.1 == k with
    | false => simp
    | true => simp [eq_of_beq hk]

theorem contains_gather (es : List (κ × ν)) (m : SortedMap κ (List ν)) (k : κ) :
    (es.foldl (fun m e => m.insert e.1 ((m.get? e.1).getD [] ++ [e.2])) m).contains k =
      (m.contains k || (es.map (·.1)).contains k) := by
  induction es generalizing m with
  | nil => simp
  | cons e es ih =>
    rw [List.foldl_cons, ih, contains, get?_insert, contains, List.map_cons, List.contains_cons]
    cases k == e.1 with
    | false => simp
    | true => simp

end SortedMap

/-- Entries taken key by key are the entries that have one of the keys. -/
theorem flatMap_filter_perm {ks : List κ} (h : ks.Nodup) (es : List (κ × ν)) :
    (ks.flatMap fun k => es.filter (·.1 == k)).Perm (es.filter fun e => ks.contains e.1) := by
  induction ks with
  | nil => simp
  | cons k ks ih =>
    obtain ⟨hk, hks⟩ := List.nodup_cons.1 h
    have hfirst : (es.filter fun e => (k :: ks).contains e.1).filter (·.1 == k) =
        es.filter (·.1 == k) := by
      rw [List.filter_filter]
      refine List.filter_congr fun e _ => ?_
      rw [List.contains_cons]
      cases e.1 == k <;> rfl
    have hrest : (es.filter fun e => (k :: ks).contains e.1).filter (fun e => !(e.1 == k)) =
        es.filter fun e => ks.contains e.1 := by
      rw [List.filter_filter]
      refine List.filter_congr fun e _ => ?_
      rw [List.contains_cons]
      cases hek : e.1 == k with
      | false => rfl
      | true => simpa [eq_of_beq hek] using hk
    have hsplit := List.filter_append_perm (·.1 == k) (es.filter fun e => (k :: ks).contains e.1)
    rw [hfirst, hrest] at hsplit
    exact ((ih hks).append_left _).trans hsplit

end Grouping

namespace Outcome

def files (o : Outcome) : List String := o.conflicts.flatMap fun c => c.sources.map (·.file)

section Documents

variable (toUri : String → Option DocumentUri)

/-- One diagnostic for each source of a conflict whose file is the document. -/
def diagnosticsAt (o : Outcome) (base : String) (uri : DocumentUri) : List Diagnostic :=
  o.conflicts.flatMap fun c =>
    (c.sources.filter fun s => toUri (Path.join base s.file) == some uri).map c.diagnostic

/-- Every file has a URI, seen from `base`. -/
def Addressed (o : Outcome) (base : String) : Prop :=
  ∀ file ∈ o.files, (toUri (Path.join base file)).isSome = true

/-- Files that have one URI, seen from `base`, are written in one way. -/
def SpelledOnce (o : Outcome) (base : String) : Prop :=
  ∀ file ∈ o.files, ∀ file' ∈ o.files,
    toUri (Path.join base file) = toUri (Path.join base file') → file = file'

/--
The entries of each document hold together one diagnostic for each source in it, and no document
without a source has an entry.
-/
structure Reports (o : Outcome) (base : String) (ps : List Publication) : Prop where
  affected : ∀ uri, uri ∈ ps.map (·.uri) ↔ o.diagnosticsAt toUri base uri ≠ []
  complete : ∀ uri, ((ps.filter (·.uri == uri)).flatMap (·.diagnostics)).Perm
    (o.diagnosticsAt toUri base uri)

/-- Each document that has a source has one entry, which holds all its diagnostics. -/
structure OnePerDocument (o : Outcome) (base : String) (ps : List Publication) : Prop where
  distinct : (ps.map (·.uri)).Nodup
  whole : ∀ p ∈ ps, p.diagnostics = o.diagnosticsAt toUri base p.uri

end Documents

section Findings

variable (o : Outcome)

def findings : List (String × Diagnostic) :=
  o.conflicts.flatMap fun c => c.sources.map fun s => (s.file, c.diagnostic s)

theorem map_findings : o.findings.map (·.1) = o.files := by
  rw [findings, files, List.map_flatMap]
  simp only [List.map_map, Function.comp_def]

theorem mem_files_of_mem_findings {f : String × Diagnostic} (h : f ∈ o.findings) :
    f.1 ∈ o.files := by
  rw [← map_findings]
  exact List.mem_map_of_mem h

theorem diagnosticsAt_eq (toUri : String → Option DocumentUri) (base : String)
    (uri : DocumentUri) : o.diagnosticsAt toUri base uri =
      (o.findings.filter fun f => toUri (Path.join base f.1) == some uri).map (·.2) := by
  rw [diagnosticsAt, findings, List.filter_flatMap, List.map_flatMap]
  refine congrArg (List.flatMap · o.conflicts) (funext fun c => ?_)
  rw [List.filter_map, List.map_map]
  rfl

def diagnosticsIn (file : String) : List Diagnostic :=
  (o.findings.filter (·.1 == file)).map (·.2)

theorem diagnosticsByFile_eq : o.diagnosticsByFile =
    o.findings.foldl (fun m e => m.insert e.1 ((m.get? e.1).getD [] ++ [e.2])) ∅ := rfl

theorem mem_keys_diagnosticsByFile {file : String} :
    file ∈ o.diagnosticsByFile.keys ↔ file ∈ o.files := by
  have hempty : (∅ : SortedMap String (List Diagnostic)).contains file = false := rfl
  rw [SortedMap.mem_keys, diagnosticsByFile_eq, SortedMap.contains_gather, map_findings, hempty,
    Bool.false_or, List.contains_iff_mem]

theorem toList_diagnosticsByFile :
    o.diagnosticsByFile.toList =
      o.diagnosticsByFile.keys.map fun file => (file, o.diagnosticsIn file) := by
  have hdiagnostics : ∀ e ∈ o.diagnosticsByFile.toList, o.diagnosticsIn e.1 = e.2 := by
    intro e he
    have hget : o.diagnosticsByFile.get? e.1 = some e.2 := SortedMap.get?_eq_some_iff.2 he
    have hgathered := SortedMap.getD_get?_gather o.findings ∅ e.1
    rw [← diagnosticsByFile_eq, hget] at hgathered
    exact hgathered.symm
  rw [SortedMap.keys, List.map_map]
  refine (List.map_id _).symm.trans (List.map_congr_left fun e he => ?_)
  rw [Function.comp_apply, hdiagnostics e he]
  rfl

variable {o} {toUri : String → Option DocumentUri} {base : String} {ps : List Publication}
  {uriOf : String → DocumentUri}

/-- What is published where every file has a URI: a document for each file. -/
theorem publicationsBy_eq
    (huri : ∀ file ∈ o.files, toUri (Path.join base file) = some (uriOf file)) :
    o.publicationsBy toUri base =
      .ok (o.diagnosticsByFile.keys.map fun file => ⟨uriOf file, o.diagnosticsIn file⟩) := by
  have hentry : ∀ e ∈ o.diagnosticsByFile.toList,
      (do return ⟨← DocumentUri.ofFile toUri base e.1, e.2⟩ : Except UriError Publication) =
        .ok ⟨uriOf e.1, e.2⟩ := by
    intro e he
    have hfile := huri e.1 ((mem_keys_diagnosticsByFile o).1 (List.mem_map_of_mem he))
    rw [DocumentUri.ofFile, hfile]
    rfl
  rw [publicationsBy, mapM_eq_ok_map hentry, toList_diagnosticsByFile, List.map_map]
  rfl

theorem addressed_of_publicationsBy (h : o.publicationsBy toUri base = .ok ps) :
    o.Addressed toUri base := by
  intro file hfile
  obtain ⟨e, he, rfl⟩ := List.mem_map.1 ((mem_keys_diagnosticsByFile o).2 hfile)
  obtain ⟨p, -, hp⟩ := exists_mem_of_mapM h he
  obtain ⟨uri, huri, -⟩ := bind_eq_ok.1 hp
  rw [DocumentUri.ofFile] at huri
  split at huri
  · rename_i hsome
    rw [hsome]
    rfl
  · cases huri

theorem Addressed.exists_uriOf (h : o.Addressed toUri base) :
    ∃ uriOf : String → DocumentUri,
      ∀ file ∈ o.files, toUri (Path.join base file) = some (uriOf file) := by
  refine ⟨fun file => (toUri (Path.join base file)).getD ⟨""⟩, fun file hfile => ?_⟩
  obtain ⟨uri, huri⟩ := Option.isSome_iff_exists.1 (h file hfile)
  simp only [huri, Option.getD_some]

theorem exists_uriOf_of_publicationsBy (h : o.publicationsBy toUri base = .ok ps) :
    ∃ uriOf : String → DocumentUri,
      (∀ file ∈ o.files, toUri (Path.join base file) = some (uriOf file)) ∧
      ps = o.diagnosticsByFile.keys.map fun file => ⟨uriOf file, o.diagnosticsIn file⟩ := by
  obtain ⟨uriOf, huri⟩ := (addressed_of_publicationsBy h).exists_uriOf
  rw [publicationsBy_eq huri, Except.ok.injEq] at h
  exact ⟨uriOf, huri, h.symm⟩

theorem diagnosticsAt_of_uriOf
    (huri : ∀ file ∈ o.files, toUri (Path.join base file) = some (uriOf file)) (uri : DocumentUri) :
    o.diagnosticsAt toUri base uri = (o.findings.filter fun f => uriOf f.1 == uri).map (·.2) := by
  rw [diagnosticsAt_eq]
  refine congrArg (List.map Prod.snd) (List.filter_congr fun f hf => ?_)
  rw [huri f.1 (mem_files_of_mem_findings o hf)]
  rfl

theorem reports_publicationsBy (h : o.publicationsBy toUri base = .ok ps) :
    o.Reports toUri base ps := by
  obtain ⟨uriOf, huri, rfl⟩ := exists_uriOf_of_publicationsBy h
  constructor
  · intro uri
    rw [diagnosticsAt_of_uriOf huri, List.map_map, List.mem_map, Ne, List.map_eq_nil_iff,
      List.filter_eq_nil_iff]
    simp only [mem_keys_diagnosticsByFile, ← map_findings]
    simp
  · intro uri
    have hfiles : ∀ f ∈ o.findings,
        (o.diagnosticsByFile.keys.filter fun file => uriOf file == uri).contains f.1 =
          (uriOf f.1 == uri) := by
      intro f hf
      have hkey : f.1 ∈ o.diagnosticsByFile.keys :=
        (mem_keys_diagnosticsByFile o).2 (mem_files_of_mem_findings o hf)
      rw [Bool.eq_iff_iff, List.contains_iff_mem, List.mem_filter]
      exact and_iff_right hkey
    have hnodup := o.diagnosticsByFile.nodup_keys.filter fun file => uriOf file == uri
    have hperm := (flatMap_filter_perm hnodup o.findings).map (·.2)
    rw [List.filter_congr hfiles, List.map_flatMap] at hperm
    rw [List.filter_map, List.flatMap_map, diagnosticsAt_of_uriOf huri]
    exact hperm

theorem distinct_publicationsBy_iff (h : o.publicationsBy toUri base = .ok ps) :
    (ps.map (·.uri)).Nodup ↔ o.SpelledOnce toUri base := by
  obtain ⟨uriOf, huri, rfl⟩ := exists_uriOf_of_publicationsBy h
  rw [List.map_map, List.nodup_map_iff_inj_on o.diagnosticsByFile.nodup_keys]
  simp only [mem_keys_diagnosticsByFile, Function.comp_apply]
  refine forall₂_congr fun file hfile => forall₂_congr fun file' hfile' => ?_
  rw [huri file hfile, huri file' hfile', Option.some.injEq]

theorem onePerDocument_publicationsBy (h : o.publicationsBy toUri base = .ok ps)
    (hspelled : o.SpelledOnce toUri base) : o.OnePerDocument toUri base ps := by
  refine ⟨(distinct_publicationsBy_iff h).2 hspelled, fun p hp => ?_⟩
  obtain ⟨uriOf, huri, rfl⟩ := exists_uriOf_of_publicationsBy h
  obtain ⟨file, hfile, rfl⟩ := List.mem_map.1 hp
  rw [mem_keys_diagnosticsByFile] at hfile
  simp only [diagnosticsAt_of_uriOf huri, diagnosticsIn]
  refine congrArg (List.map Prod.snd) (List.filter_congr fun f hf => ?_)
  have hf := mem_files_of_mem_findings o hf
  rw [Bool.eq_iff_iff, beq_iff_eq, beq_iff_eq]
  constructor
  · intro heq
    rw [heq]
  · intro heq
    refine hspelled f.1 hf file hfile ?_
    rw [huri f.1 hf, huri file hfile, heq]

theorem addressed_of_total (htotal : DocumentUri.Total toUri)
    (hbase : Path.isAbsolute base = true) : o.Addressed toUri base := fun file _ =>
  htotal _ (Path.isAbsolute_join_of_absolute hbase file)

theorem spelledOnce_iff_of_faithful (hfaithful : DocumentUri.Faithful toUri)
    (hbase : Path.isAbsolute base = true) : o.SpelledOnce toUri base ↔
      ∀ file ∈ o.files, ∀ file' ∈ o.files,
        Path.same (Path.join base file) (Path.join base file') = true → file = file' := by
  refine forall₂_congr fun file _ => forall₂_congr fun file' _ => ?_
  rw [hfaithful _ _ (Path.isAbsolute_join_of_absolute hbase file)
    (Path.isAbsolute_join_of_absolute hbase file')]

end Findings

/--
An outcome can be published exactly if all its files have a URI. Then each document is told of every
source in it. It is told in one entry, and all entries are of different documents, if and only if no
document is written in two ways.

Seen from an absolute directory all files have a URI if all absolute paths have one; and if only
paths to one place share a URI, a document is written in two ways if two files lead to one place.
-/
theorem publications_per_document (toUri : String → Option DocumentUri) (o : Outcome)
    (base : String) :
    ((∃ ps, o.publicationsBy toUri base = .ok ps) ↔ o.Addressed toUri base) ∧
    (∀ ps, o.publicationsBy toUri base = .ok ps → o.Reports toUri base ps ∧
      ((ps.map (·.uri)).Nodup ↔ o.SpelledOnce toUri base) ∧
      (o.SpelledOnce toUri base → o.OnePerDocument toUri base ps)) ∧
    (DocumentUri.Total toUri → Path.isAbsolute base = true → o.Addressed toUri base) ∧
    (DocumentUri.Faithful toUri → Path.isAbsolute base = true →
      (o.SpelledOnce toUri base ↔ ∀ file ∈ o.files, ∀ file' ∈ o.files,
        Path.same (Path.join base file) (Path.join base file') = true → file = file')) := by
  refine ⟨⟨fun ⟨ps, h⟩ => addressed_of_publicationsBy h, fun h => ?_⟩, fun ps h => ?_,
    addressed_of_total, spelledOnce_iff_of_faithful⟩
  · obtain ⟨uriOf, huri⟩ := h.exists_uriOf
    exact ⟨_, publicationsBy_eq huri⟩
  · exact ⟨reports_publicationsBy h, distinct_publicationsBy_iff h,
      onePerDocument_publicationsBy h⟩

/-- Two sources in one file, written alike, and one in another. -/
def ofTwoFiles : Outcome :=
  .conflict [⟨.data, "mismatch", [.line "./main.c" 3 none, .line "lib/util.c" 7 none], []⟩,
    ⟨.control, "call", [.line "./main.c" 9 none], ["copy it"]⟩]

theorem same_ofTwoFiles : ∀ file ∈ ofTwoFiles.files, ∀ file' ∈ ofTwoFiles.files,
    Path.same (Path.join "/work" file) (Path.join "/work" file') = true → file = file' := by
  simp only [Path.same, Path.components, Path.parts, Path.splitOn_slash]
  decide

theorem publications_per_document_ofTwoFiles : DocumentUri.Total DocumentUri.ofPath? ∧
    DocumentUri.Faithful DocumentUri.ofPath? ∧ Path.isAbsolute "/work" = true ∧
    ofTwoFiles.SpelledOnce DocumentUri.ofPath? "/work" ∧
    ∃ ps, ofTwoFiles.publications "/work" = .ok ps ∧
      ofTwoFiles.Reports DocumentUri.ofPath? "/work" ps ∧
      ofTwoFiles.OnePerDocument DocumentUri.ofPath? "/work" ps := by
  have hbase : Path.isAbsolute "/work" = true := by decide
  obtain ⟨hexists, hpublished, htotal, hfaithful⟩ :=
    publications_per_document DocumentUri.ofPath? ofTwoFiles "/work"
  have hspelled := (hfaithful DocumentUri.faithful_ofPath? hbase).2 same_ofTwoFiles
  obtain ⟨ps, hps⟩ := hexists.2 (htotal DocumentUri.total_ofPath? hbase)
  obtain ⟨hreports, -, hone⟩ := hpublished ps hps
  exact ⟨DocumentUri.total_ofPath?, DocumentUri.faithful_ofPath?, hbase, hspelled, ps, hps,
    hreports, hone hspelled⟩

/-- Sources in one file that write it in two ways. -/
def ofTwoSpellings : Outcome :=
  .conflict [⟨.data, "mismatch", [.line "a.c" 1 none, .line "/work/a.c" 2 none], []⟩]

/-- Whatever the URI of a file is, a document that is written in two ways has two entries. -/
theorem publicationsBy_ofTwoSpellings {uri : DocumentUri} (h : toUri "/work/a.c" = some uri) :
    ∃ first second, first ≠ second ∧
      ofTwoSpellings.publicationsBy toUri "/work" = .ok [⟨uri, [first]⟩, ⟨uri, [second]⟩] := by
  have hkeys : ofTwoSpellings.diagnosticsByFile.keys = ["/work/a.c", "a.c"] := by decide
  have hjoin : ∀ file ∈ ofTwoSpellings.files, Path.join "/work" file = "/work/a.c" := by decide
  have huri : ∀ file ∈ ofTwoSpellings.files,
      toUri (Path.join "/work" file) = some (Function.const String uri file) := by
    intro file hfile
    rw [hjoin file hfile, h]
    rfl
  rw [publicationsBy_eq huri, hkeys]
  exact ⟨_, _, by decide, rfl⟩

/-- A document that is written in two ways has two entries, each with one of its diagnostics. -/
theorem document_published_twice : ∃ uri first second, first ≠ second ∧
    ofTwoSpellings.publications "/work" = .ok [⟨uri, [first]⟩, ⟨uri, [second]⟩] := by
  obtain ⟨uri, huri⟩ := Option.isSome_iff_exists.1
    (DocumentUri.total_ofPath? "/work/a.c" (by decide))
  exact ⟨uri, publicationsBy_ofTwoSpellings huri⟩

end Outcome

end Enclave
