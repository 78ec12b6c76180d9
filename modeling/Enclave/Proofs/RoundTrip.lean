import Enclave.Format.Outcome
import Enclave.Format.Program
import Enclave.Proofs.Collections
import Enclave.Proofs.Sequencing
import Enclave.Proofs.Spelling

/-!
# Enclave.Proofs.RoundTrip

What is written is read back. A value is written as a document and the document as a text; the text
gives the document again, so what is left is that each reader of documents undoes its writer. For
records that is a matter of names: no name is written twice, and each field is looked for under the
name it is written with.

A place, and an outcome, is read out of a document that is kept whole first, so those documents must
also be flat enough and hold no number that a double cannot.
-/

namespace Enclave

attribute [local simp] ok_bind

theorem SortedMap.ofList_toList {ν : Type} (m : SortedMap String ν) :
    SortedMap.ofList m.toList = m := by
  apply SortedMap.ext_get?
  intro k
  rw [SortedMap.ofList, SortedMap.get?_foldl_insert m.nodup_keys]
  cases h : m.toList.lookup k <;> simp [SortedMap.get?, SortedMap.empty, h]

namespace Json

variable {α : Type} {f : Json → Decoded α} {g : α → Json}

/-- Reading with `f` undoes writing with `g`. -/
def Undoes (f : Json → Decoded α) (g : α → Json) : Prop := ∀ a, f (g a) = .ok a

section Values

theorem undoes_text : Undoes asText text := fun _ => rfl

theorem undoes_uint32 : Undoes asUInt32 fun n => .nat n.toNat := by
  intro n
  have hn := n.toNat_lt
  have hrange : (0 : Int) ≤ n.toNat ∧ (n.toNat : Int) < 4294967296 := by omega
  simp [asUInt32, nat, asInt, hrange, pure, Except.pure]

theorem undoes_int32 : Undoes asInt32 fun z => .int z.toInt := by
  intro z
  have hrange : -2147483648 ≤ z.toInt ∧ z.toInt < 2147483648 := ⟨z.le_toInt, z.toInt_lt⟩
  simp [asInt32, asInt, hrange, pure, Except.pure]

theorem Undoes.list (h : Undoes f g) : Undoes (asList f) (list g) := by
  intro as
  have hmap : as.mapM (f ∘ g) = .ok (as.map id) := mapM_eq_ok_map fun a _ => h a
  rw [Json.list, asList, List.mapM_map]
  simpa [Function.comp_def] using hmap

theorem undoes_texts : Undoes asTexts texts := undoes_text.list

def named (members : List (String × Json)) : List (Option String × Json) :=
  members.map fun m => (some m.1, m.2)

theorem namedMembers_named (members : List (String × Json)) :
    namedMembers (named members) = .ok members := by
  induction members with
  | nil => rfl
  | cons m members ih =>
    rw [named, List.map_cons, namedMembers, ← named, ih]
    rfl

theorem Undoes.map (h : Undoes f g) :
    Undoes (asMap f) fun m => .object (m.toList.map fun e => (e.1, g e.2)) := by
  intro m
  have hentries : m.toList.mapM (fun e => do return (e.1, ← f (g e.2))) =
      .ok (m.toList.map id) := by
    apply mapM_eq_ok_map
    intro e _
    rw [h]
    rfl
  change (namedMembers (named _) >>= _) = .ok m
  rw [namedMembers_named, ok_bind, List.mapM_map]
  change (m.toList.mapM (fun e => do return (e.1, ← f (g e.2))) >>= _) = .ok m
  rw [hentries, List.map_id, ok_bind, SortedMap.ofList_toList]
  rfl

end Values

section Records

variable {fields : List FieldNames} {members : List (String × Json)} {name : String}

theorem filter_eq_lookup (hnodup : (members.map (·.1)).Nodup) (name : String) :
    members.filter (·.1 == name) = (members.lookup name).toList.map (name, ·) := by
  induction members with
  | nil => rfl
  | cons m members ih =>
    obtain ⟨hm, hnodup⟩ := List.nodup_cons.1 hnodup
    rw [List.filter_cons, List.lookup_cons]
    by_cases heq : m.1 = name
    · have hnone : members.filter (·.1 == name) = [] := by
        rw [List.filter_eq_nil_iff]
        intro m' hm' hname
        exact hm (List.mem_map.2 ⟨m', hm', (eq_of_beq hname).trans heq.symm⟩)
      simp [← heq] at hnone ⊢
      exact hnone
    · have hbeq : (name == m.1) = false := beq_false_of_ne (Ne.symm heq)
      simp [ih hnodup, hbeq, heq]

theorem namedField_eq (hnodup : (members.map (·.1)).Nodup) {field : FieldNames}
    (haliases : ∀ a ∈ field.aliases, a ∉ members.map (·.1)) :
    namedField members field = .ok ((members.lookup field.name).toList.map (field.name, ·)) := by
  have hfilter : members.filter (fun m => m.1 == field.name || field.aliases.contains m.1) =
      members.filter (·.1 == field.name) := by
    apply List.filter_congr
    intro m hm
    have halias : m.1 ∉ field.aliases := fun h => haliases _ h (List.mem_map_of_mem hm)
    simp [halias]
  rw [namedField, hfilter, filter_eq_lookup hnodup]
  cases members.lookup field.name <;> rfl

theorem lookup_flatten (name : String) :
    (fields.map fun field => (members.lookup field.name).toList.map (field.name, ·)).flatten.lookup
      name = if name ∈ fields.map (·.name) then members.lookup name else none := by
  induction fields with
  | nil => rfl
  | cons field fields ih =>
    rw [List.map_cons, List.flatten_cons, List.lookup_append, ih]
    by_cases heq : name = field.name
    · subst heq
      cases hfound : members.lookup field.name <;> simp
    · have hbeq : (name == field.name) = false := beq_false_of_ne heq
      cases members.lookup field.name <;> simp [List.lookup_cons, hbeq, heq]

/-- A record has under the names of its fields what was written there, if no name is written twice
and none is an older name of a field. -/
theorem read_named {β : Type} {read : Record → Decoded β} {b : Decoded β} (names : List String)
    (hsub : (members.map (·.1)).Sublist names) (hnodup : names.Nodup)
    (haliases : ∀ field ∈ fields, ∀ a ∈ field.aliases, a ∉ names)
    (hread : ∀ r : Record, (∀ name ∈ fields.map (·.name), r.lookup name = members.lookup name) →
      read r = b) :
    (recordOfMembers fields (named members) >>= read) = b := by
  have hfields := mapM_eq_ok_map fun field hfield => namedField_eq (hnodup.sublist hsub)
    fun a ha hmem => haliases field hfield a ha (hsub.subset hmem)
  rw [recordOfMembers, namedMembers_named, ok_bind, hfields]
  apply hread
  intro name hname
  rw [lookup_flatten, if_pos hname]

theorem undoes_record {read : Record → Decoded α} {write : α → List (String × Json)}
    (hsub : ∀ a, ((write a).map (·.1)).Sublist (fields.map (·.name)))
    (hnodup : (fields.map (·.name)).Nodup)
    (haliases : ∀ field ∈ fields, ∀ a ∈ field.aliases, a ∉ fields.map (·.name))
    (hread : ∀ a r, (∀ name ∈ fields.map (·.name), r.lookup name = (write a).lookup name) →
      read r = .ok a) :
    Undoes (fun j => asRecord fields j >>= read) fun a => .object (write a) :=
  fun a => read_named _ (hsub a) hnodup haliases (hread a)

@[simp] theorem names_fieldsNamed (names : List String) :
    (fieldsNamed names).map (·.name) = names := by
  simp [fieldsNamed, Function.comp_def]

@[simp] theorem lookup_cons_eq {name' : String} {j : Json} :
    ((name', j) :: members).lookup name = if name = name' then some j else members.lookup name := by
  by_cases heq : name = name'
  · simp [heq]
  · have hbeq : (name == name') = false := beq_false_of_ne heq
    simp [List.lookup_cons, heq, hbeq]

@[simp] theorem lookup_append_member? {name' : String} {o : Option α} :
    (member? name' g o ++ members).lookup name =
      if name = name' then (o.map g).or (members.lookup name) else members.lookup name := by
  cases o with
  | none => simp [member?]
  | some a => simp [member?, lookup_cons_eq]

@[simp] theorem lookup_member? {name' : String} {o : Option α} :
    (member? name' g o).lookup name = if name = name' then o.map g else none := by
  cases o <;> simp [member?]

theorem sublist_member? {o : Option α} {l names : List String} (h : l.Sublist names) :
    ((member? name g o).map (·.1) ++ l).Sublist (name :: names) := by
  cases o with
  | none => exact h.cons name
  | some a => exact h.cons_cons name

theorem sublist_last {o : Option α} : ((member? name g o).map (·.1)).Sublist [name] := by
  simpa using sublist_member? .slnil

variable {r : Record}

theorem required_eq {a : α} (h : Undoes f g) (hr : r.lookup name = some (g a)) :
    r.required name f = .ok a := by
  rw [Record.required, hr]
  exact h a

theorem orElse_eq {a b : α} (h : Undoes f g) (hr : r.lookup name = some (g a)) :
    r.orElse name b f = .ok a := by
  rw [Record.orElse, hr]
  exact h a

theorem optional_eq {o : Option α} (h : Undoes f g) (hnull : ∀ a, g a ≠ .null)
    (hr : r.lookup name = o.map g) : r.optional name f = .ok o := by
  rw [Record.optional, Record.orElse, hr]
  cases o with
  | none => rfl
  | some a =>
    have hsome : asOption f (g a) = do return some (← f (g a)) := by
      rw [asOption]
      exact hnull a
    change asOption f (g a) = .ok (some a)
    rw [hsome, h]
    rfl

end Records

section Kept

/-- The document is no deeper than `n` and holds what can be kept. -/
def Kept (n : Nat) (j : Json) : Prop := j.depth ≤ n ∧ j.isSound fitsDouble = true

variable {n m : Nat} {j : Json}

theorem keep_eq (h : Kept n j) {depth : Nat} (hdepth : depth + n ≤ 127) :
    keep depth j = .ok j := by
  have hnot : ¬ maxDepth < depth + j.depth := by
    have := h.1
    simp only [maxDepth]
    omega
  rw [keep, if_neg hnot, if_pos h.2]

theorem Kept.mono (h : Kept n j) (hle : n ≤ m) : Kept m j := ⟨Nat.le_trans h.1 hle, h.2⟩

theorem kept_text (s : String) : Kept n (text s) := by simp [Kept, text, depth, isSound]

theorem fitsDouble_of_lt (h : n < Nat.pow 2 53) : fitsDouble n 0 = true := by
  have hlead : leadingDigits (Nat.pow 2 64) (n.log2 + 1) n = (n, 0) := by
    rw [leadingDigits, if_pos (Nat.lt_trans h (by decide))]
  have hround : roundToDouble n = n := by rw [roundToDouble, if_pos h]
  have hone : roundToDouble (Nat.pow 10 0) = 1 := by decide
  have hbound : Nat.pow 2 53 < infinityBound := by decide +kernel
  rw [fitsDouble, hlead]
  dsimp only
  by_cases hzero : n = 0
  · rw [if_pos (.inl hzero)]
  · have hsome : ¬ (n = 0 ∨ (0 : Int) + (0 : Nat) < 0) := by omega
    rw [if_neg hsome, if_neg (by decide)]
    show decide (roundToDouble n * roundToDouble (Nat.pow 10 0) < infinityBound) = true
    rw [hround, hone, Nat.mul_one]
    exact decide_eq_true (Nat.lt_trans h hbound)

theorem kept_int {z : Int} (h : z.natAbs < Nat.pow 2 53) : Kept n (.int z) :=
  ⟨by simp [depth], fitsDouble_of_lt h⟩

theorem kept_nat (h : m < Nat.pow 2 53) : Kept n (nat m) := kept_int h

theorem kept_list {as : List α} (h : ∀ a ∈ as, Kept n (g a)) : Kept (n + 1) (list g as) := by
  induction as with
  | nil => simp [Kept, list, depth, depthOfItems, isSound, itemsAreSound]
  | cons a as ih =>
    have ha := h a List.mem_cons_self
    have has := ih fun a' ha' => h a' (List.mem_cons_of_mem a ha')
    simp only [Kept, list, depth, isSound] at ha has
    constructor
    · simp only [list, depth, List.map_cons, depthOfItems]
      omega
    · simp [list, isSound, itemsAreSound, ha, has]

theorem kept_object {members : List (String × Json)} (h : ∀ m ∈ members, Kept n m.2) :
    Kept (n + 1) (object members) := by
  induction members with
  | nil => simp [Kept, object, depth, depthOfMembers, isSound, membersAreSound]
  | cons m members ih =>
    have hm := h m List.mem_cons_self
    have hms := ih fun m' hm' => h m' (List.mem_cons_of_mem m hm')
    simp only [Kept, object, depth, isSound] at hm hms
    constructor
    · simp only [object, depth, List.map_cons, depthOfMembers]
      omega
    · simp [object, isSound, membersAreSound, hm, hms]

theorem kept_texts (ss : List String) : Kept (n + 1) (texts ss) :=
  kept_list fun s _ => kept_text s

end Kept

end Json

open Json

theorem Position.ofJson_toJson : Undoes ofJson toJson := by
  refine undoes_record (fun p => .refl _) (by decide) (by decide) fun p r hr => ?_
  have hline : r.required "line" asUInt32 = .ok p.line := required_eq undoes_uint32 (by simp [hr])
  have hcharacter : r.required "character" asUInt32 = .ok p.character :=
    required_eq undoes_uint32 (by simp [hr])
  rw [hline, hcharacter]
  rfl

theorem TextRange.ofJson_toJson : Undoes ofJson toJson := by
  refine undoes_record (fun t => .refl _) (by decide) (by decide) fun t r hr => ?_
  have hstart : r.required "start" Position.ofJson = .ok t.start :=
    required_eq Position.ofJson_toJson (by simp [hr])
  have hstop : r.required "end" Position.ofJson = .ok t.stop :=
    required_eq Position.ofJson_toJson (by simp [hr])
  rw [hstart, hstop]
  rfl

namespace Source

theorem kept_word {n : Nat} (w : UInt32) : Kept n (.nat w.toNat) := by
  have hw := w.toNat_lt
  exact kept_nat (by simp only [Nat.pow_eq]; omega)

theorem kept_position (p : Position) : Kept 1 p.toJson := by
  apply kept_object
  simp [kept_word]

theorem rangeOfMembers_range (file : String) (t : TextRange) :
    rangeOfMembers (named [("file", .text file), ("range", t.toJson)]) = .ok (.range file t) := by
  refine read_named ["file", "range"] (.refl _) (by decide) (by decide) fun r hr => ?_
  have hfile : r.required "file" asText = .ok file := required_eq undoes_text (by simp [hr])
  have hrange : r.required "range" TextRange.ofJson = .ok t :=
    required_eq TextRange.ofJson_toJson (by simp [hr])
  rw [hfile, hrange]
  rfl

section Line

variable (file : String) (n : UInt32) (character : Option UInt32)

def lineMembers : List (String × Json) :=
  [("file", .text file), ("line", .nat n.toNat)] ++ member? "character" (.nat ·.toNat) character

theorem sublist_lineMembers :
    ((lineMembers file n character).map (·.1)).Sublist ["file", "line", "character"] :=
  (sublist_last.cons_cons "line").cons_cons "file"

theorem rangeOfMembers_line :
    rangeOfMembers (named (lineMembers file n character)) = .error (.missing "range") := by
  refine read_named _ (sublist_lineMembers file n character) (by decide) (by decide) fun r hr => ?_
  have hfile : r.required "file" asText = .ok file :=
    required_eq undoes_text (by simp [hr, lineMembers])
  have hrange : r.required "range" TextRange.ofJson = .error (.missing "range") := by
    simp [Record.required, hr, lineMembers]
  rw [hfile, hrange]
  rfl

theorem lineOfMembers_line :
    lineOfMembers (named (lineMembers file n character)) = .ok (.line file n character) := by
  refine read_named _ (sublist_lineMembers file n character) (by decide) (by decide) fun r hr => ?_
  have hfile : r.required "file" asText = .ok file :=
    required_eq undoes_text (by simp [hr, lineMembers])
  have hline : r.required "line" asUInt32 = .ok n :=
    required_eq undoes_uint32 (by simp [hr, lineMembers])
  have hcharacter : r.optional "character" asUInt32 = .ok character :=
    optional_eq undoes_uint32 nofun (by simp [hr, lineMembers])
  rw [hfile, hline, hcharacter]
  rfl

end Line

theorem kept_toJson (s : Source) : Kept 3 s.toJson := by
  cases s with
  | range file t =>
    have hrange : Kept 2 t.toJson := by
      apply kept_object
      simp [kept_position]
    apply kept_object
    simp [hrange, kept_text]
  | line file n character =>
    have hmembers : ∀ m ∈ lineMembers file n character, Kept 0 m.2 := by
      cases character <;> simp [lineMembers, member?, kept_text, kept_word]
    exact (kept_object hmembers).mono (by decide)

theorem ofJson_of_range {depth : Nat} {members : List (Option String × Json)} {s : Source}
    (hkeep : keep depth (.obj members) = .ok (.obj members))
    (hrange : rangeOfMembers members = .ok s) :
    ofJson depth (.obj members) = .ok s := by
  simp [ofJson, hkeep, hrange, pure, Except.pure]

theorem ofJson_of_line {depth : Nat} {members : List (Option String × Json)} {e : DecodeError}
    (hkeep : keep depth (.obj members) = .ok (.obj members))
    (hrange : rangeOfMembers members = .error e) :
    ofJson depth (.obj members) = lineOfMembers members := by
  simp [ofJson, hkeep, hrange]

theorem ofJson_toJson {depth : Nat} (hdepth : depth ≤ 124) : Undoes (ofJson depth) toJson := by
  intro s
  have hkeep : keep depth s.toJson = .ok s.toJson := keep_eq s.kept_toJson (by omega)
  cases s with
  | range file t => exact ofJson_of_range hkeep (rangeOfMembers_range file t)
  | line file n character =>
    rw [← lineOfMembers_line]
    exact ofJson_of_line hkeep (rangeOfMembers_line file n character)

end Source

theorem TaintDecl.ofJson_toJson : Undoes ofJson toJson := by
  refine undoes_record (fun t => ?_) (by decide) (by decide) fun t r hr => ?_
  · simp only [List.map_append, List.append_assoc]
    exact sublist_member? (sublist_member? sublist_last)
  have hreturns : r.optional "returnTaint" asTexts = .ok t.returns :=
    optional_eq undoes_texts nofun (by simp [hr])
  have harguments : r.optional "argTaints" asTexts = .ok t.arguments :=
    optional_eq undoes_texts nofun (by simp [hr])
  have hcode : r.optional "codeTaint" asTexts = .ok t.code :=
    optional_eq undoes_texts nofun (by simp [hr])
  rw [hreturns, harguments, hcode]
  rfl

section Program

variable {depth : Nat}

theorem Source.toJson_ne_null (s : Source) : s.toJson ≠ .null := by
  cases s <;> nofun

theorem optional_source {r : Record} {name : String} {o : Option Source} (hdepth : depth ≤ 122)
    (hr : r.lookup name = o.map (·.toJson)) : r.optional name (Source.ofJson (depth + 1)) = .ok o :=
  optional_eq (Source.ofJson_toJson (by omega)) Source.toJson_ne_null hr

theorem ElementDecl.ofJson_toJson (hdepth : depth ≤ 122) : Undoes (ofJson depth) toJson := by
  refine undoes_record (fun e => ?_) (by decide) (by decide) fun e r hr => ?_
  · simp only [List.map_append, List.append_assoc]
    exact sublist_member? (sublist_member? sublist_last)
  have hlevel : r.optional "level" asText = .ok e.level :=
    optional_eq undoes_text nofun (by simp [hr])
  have htaint : r.optional "taint" TaintDecl.ofJson = .ok e.taint :=
    optional_eq TaintDecl.ofJson_toJson nofun (by simp [hr])
  have hlocation : r.optional "location" (Source.ofJson (depth + 1)) = .ok e.location :=
    optional_source hdepth (by simp [hr])
  rw [hlevel, htaint, hlocation]
  rfl

theorem LabelDecls.ofJson_toJson (hdepth : depth ≤ 120) : Undoes (ofJson depth) toJson := by
  have helements : Undoes (asMap (ElementDecl.ofJson (depth + 2))) elementsToJson :=
    (ElementDecl.ofJson_toJson (by omega)).map
  refine undoes_record (fun d => ?_) (by decide) (by decide) fun d r hr => ?_
  · rw [List.map_append]
    exact sublist_member? (.refl _)
  have hlevels : r.optional "levels" asTexts = .ok d.levels :=
    optional_eq undoes_texts nofun (by simp [hr])
  have hfunctions : r.orElse "functions" ∅ (asMap (ElementDecl.ofJson (depth + 2))) =
      .ok d.functions := orElse_eq helements (by simp [hr])
  have hglobals : r.orElse "globals" ∅ (asMap (ElementDecl.ofJson (depth + 2))) =
      .ok d.globals := orElse_eq helements (by simp [hr])
  rw [hlevels, hfunctions, hglobals]
  rfl

theorem Declaration.ofJson_toJson (hdepth : depth ≤ 122) : Undoes (ofJson depth) toJson := by
  refine undoes_record (fun d => ?_) (by decide) (by decide) fun d r hr => ?_
  · exact sublist_last.cons_cons "name"
  have hname : r.required "name" asText = .ok d.name := required_eq undoes_text (by simp [hr])
  have hlocation : r.optional "location" (Source.ofJson (depth + 1)) = .ok d.location :=
    optional_source hdepth (by simp [hr])
  rw [hname, hlocation]
  rfl

theorem CallDecl.ofJson_toJson (hdepth : depth ≤ 122) : Undoes (ofJson depth) toJson := by
  refine undoes_record (fun c => ?_) (by decide) (by decide) fun c r hr => ?_
  · exact (sublist_last.cons_cons "callee").cons_cons "caller"
  have hcaller : r.required "caller" asText = .ok c.caller := required_eq undoes_text (by simp [hr])
  have hcallee : r.required "callee" asText = .ok c.callee := required_eq undoes_text (by simp [hr])
  have hsite : r.optional "site" (Source.ofJson (depth + 1)) = .ok c.site :=
    optional_source hdepth (by simp [hr])
  rw [hcaller, hcallee, hsite]
  rfl

theorem FlowDecl.ofJson_toJson (hdepth : depth ≤ 122) : Undoes (ofJson depth) toJson := by
  refine undoes_record (fun d => ?_) (by decide) (by decide) fun d r hr => ?_
  · exact (sublist_last.cons_cons "to").cons_cons "from"
  have hsource : r.required "from" asText = .ok d.source := required_eq undoes_text (by simp [hr])
  have htarget : r.required "to" asText = .ok d.target := required_eq undoes_text (by simp [hr])
  have hlocation : r.optional "location" (Source.ofJson (depth + 1)) = .ok d.location :=
    optional_source hdepth (by simp [hr])
  rw [hsource, htarget, hlocation]
  rfl

theorem IrFacts.ofJson_toJson (hdepth : depth ≤ 120) : Undoes (ofJson depth) toJson := by
  have hdeclarations : Undoes (asList (Declaration.ofJson (depth + 2))) (list (·.toJson)) :=
    (Declaration.ofJson_toJson (by omega)).list
  refine undoes_record (fun d => .refl _) (by decide) (by decide) fun d r hr => ?_
  have hfunctions : r.orElse "functions" [] (asList (Declaration.ofJson (depth + 2))) =
      .ok d.functions := orElse_eq hdeclarations (by simp [hr])
  have hglobals : r.orElse "globals" [] (asList (Declaration.ofJson (depth + 2))) =
      .ok d.globals := orElse_eq hdeclarations (by simp [hr])
  have hcalls : r.orElse "calls" [] (asList (CallDecl.ofJson (depth + 2))) = .ok d.calls :=
    orElse_eq (CallDecl.ofJson_toJson (by omega)).list (by simp [hr])
  have hdefUse : r.orElse "defUse" [] (asList (FlowDecl.ofJson (depth + 2))) = .ok d.defUse :=
    orElse_eq (FlowDecl.ofJson_toJson (by omega)).list (by simp [hr])
  rw [hfunctions, hglobals, hcalls, hdefUse]
  rfl

theorem PdgFacts.ofJson_toJson (hdepth : depth ≤ 120) : Undoes (ofJson depth) toJson := by
  refine undoes_record (fun d => .refl _) (by decide) (by decide) fun d r hr => ?_
  have hcontrol : r.orElse "control" [] (asList (FlowDecl.ofJson (depth + 2))) = .ok d.control :=
    orElse_eq (FlowDecl.ofJson_toJson (by omega)).list (by simp [hr])
  rw [hcontrol]
  rfl

end Program

section Outcome

theorem Placement.ofJson_toJson : Undoes ofJson toJson := by
  refine undoes_record (fun p => .refl _) (by decide) (by decide) fun p r hr => ?_
  have hname : r.required "name" asText = .ok p.name := required_eq undoes_text (by simp [hr])
  have hlevel : r.required "level" asText = .ok p.level := required_eq undoes_text (by simp [hr])
  have hline : r.required "line" asText = .ok p.line := required_eq undoes_text (by simp [hr])
  rw [hname, hlevel, hline]
  rfl

theorem Placement.kept_toJson (p : Placement) : Kept 1 p.toJson := by
  apply kept_object
  simp [kept_text]

theorem Topology.ofJson_toJson : Undoes ofJson toJson := by
  refine undoes_record (fun t => ?_) (by decide) (by decide) fun t r hr => ?_
  · cases t.defaulted.isEmpty <;> simp [fields]
  have hpath : r.required "sourcePath" asText = .ok t.sourcePath :=
    required_eq undoes_text (by simp [hr, fields])
  have hlevels : r.required "levels" asTexts = .ok t.levels :=
    required_eq undoes_texts (by simp [hr, fields])
  have hglobals : r.required "globalScopedVars" (asList Placement.ofJson) = .ok t.globals :=
    required_eq Placement.ofJson_toJson.list (by simp [hr, fields])
  have hfunctions : r.required "functions" (asList Placement.ofJson) = .ok t.functions :=
    required_eq Placement.ofJson_toJson.list (by simp [hr, fields])
  have hdefaulted : r.orElse "defaulted" [] asTexts = .ok t.defaulted := by
    cases hempty : t.defaulted with
    | nil => simp [Record.orElse, hr, fields, hempty]
    | cons d ds => exact orElse_eq undoes_texts (by simp [hr, fields, hempty])
  rw [hpath, hlevels, hglobals, hfunctions, hdefaulted]
  rfl

theorem Topology.kept_toJson (t : Topology) : Kept 3 t.toJson := by
  have hplacements : ∀ ps : List Placement, Kept 2 (list (·.toJson) ps) :=
    fun ps => kept_list fun p _ => p.kept_toJson
  apply kept_object
  cases t.defaulted.isEmpty <;> simp [kept_text, kept_texts, hplacements]

theorem ConflictKind.ofJson_toJson : Undoes ofJson toJson := by
  intro k
  cases k <;> rfl

theorem Conflict.ofJson_toJson : Undoes ofJson toJson := by
  refine undoes_record (fun c => .refl _) (by decide) (by decide) fun c r hr => ?_
  have hkind : r.required "name" ConflictKind.ofJson = .ok c.kind :=
    required_eq ConflictKind.ofJson_toJson (by simp [hr])
  have hdescription : r.required "description" asText = .ok c.description :=
    required_eq undoes_text (by simp [hr])
  have hsources : r.required "sources" (asList (Source.ofJson 0)) = .ok c.sources :=
    required_eq (Source.ofJson_toJson (by decide)).list (by simp [hr])
  have hremedies : r.orElse "remedies" [] asTexts = .ok c.remedies :=
    orElse_eq undoes_texts (by simp [hr])
  rw [hkind, hdescription, hsources, hremedies]
  rfl

theorem Conflict.kept_toJson (c : Conflict) : Kept 5 c.toJson := by
  have hsources : Kept 4 (list (·.toJson) c.sources) := kept_list fun s _ => s.kept_toJson
  apply kept_object
  simp [ConflictKind.toJson, kept_text, kept_texts, hsources]

theorem Problem.ofJson_toJson : Undoes ofJson toJson := by
  refine undoes_record (fun p => .refl _) (by decide) (by decide) fun p r hr => ?_
  have herrno : r.required "errno" asInt32 = .ok p.errno := required_eq undoes_int32 (by simp [hr])
  have htitle : r.required "errMessage" asText = .ok p.title :=
    required_eq undoes_text (by simp [hr])
  have hdetail : r.required "customMessage" asText = .ok p.detail :=
    required_eq undoes_text (by simp [hr])
  rw [herrno, htitle, hdetail]
  rfl

theorem Problem.kept_toJson (p : Problem) : Kept 1 p.toJson := by
  have hlow := p.errno.le_toInt
  have hhigh := p.errno.toInt_lt
  have herrno : Kept 0 (.int p.errno.toInt) := kept_int (by simp only [Nat.pow_eq]; omega)
  apply kept_object
  simp [kept_text, herrno]

namespace Outcome

theorem kept_toJson (o : Outcome) : Kept 7 o.toJson := by
  apply kept_object
  cases o with
  | success t => simpa [kept_text] using t.kept_toJson.mono (by decide)
  | conflict cs => simpa [kept_text] using kept_list fun c _ => c.kept_toJson
  | failure ps =>
    have hps : Kept 2 (list (·.toJson) ps) := kept_list fun p _ => p.kept_toJson
    simpa [kept_text] using hps.mono (by decide)

theorem ofJson_of_tag {members : List (Option String × Json)} {tag : String}
    (hkeep : keep 0 (.obj members) = .ok (.obj members))
    (htag : (recordOfMembers (fieldsNamed ["result"]) members >>= fun r =>
      r.required "result" asText) = .ok tag) :
    ofJson (.obj members) = ofTagged tag fun fields => recordOfMembers fields members := by
  obtain ⟨r, hr, hrequired⟩ := bind_eq_ok.1 htag
  simp [ofJson, hkeep, hr, hrequired]

/-- The tag is read first, and then the part of the outcome that it announces. -/
theorem ofJson_tagged {tag field : String} {j : Json} {o : Outcome}
    {read : Record → Decoded Outcome} (hfield : field ≠ "result")
    (hjson : o.toJson = .obj (named [("result", .text tag), (field, j)]))
    (hrest : ∀ rest, ofTagged tag rest = (rest (fieldsNamed [field]) >>= read))
    (hread : ∀ r : Record, r.lookup field = some j → read r = .ok o) :
    ofJson o.toJson = .ok o := by
  have hkeep : keep 0 o.toJson = .ok o.toJson := keep_eq o.kept_toJson (by decide)
  have hsub : ([("result", Json.text tag), (field, j)].map (·.1)).Sublist ["result", field] :=
    .refl _
  have hnodup : ["result", field].Nodup := by simp [Ne.symm hfield]
  have htag : (recordOfMembers (fieldsNamed ["result"])
      (named [("result", .text tag), (field, j)]) >>= fun r => r.required "result" asText) =
      .ok tag :=
    read_named _ hsub hnodup (by simp [fieldsNamed]) fun r hr =>
      required_eq undoes_text (by simp [hr])
  rw [hjson] at hkeep ⊢
  rw [ofJson_of_tag hkeep htag, hrest]
  refine read_named _ hsub hnodup (by simp [fieldsNamed]) fun r hr => hread r ?_
  simp [hr, hfield]

theorem ofJson_toJson : Undoes ofJson toJson := by
  intro o
  cases o with
  | success t =>
    refine ofJson_tagged (by decide) rfl (fun rest => rfl) fun r hr => ?_
    rw [required_eq Topology.ofJson_toJson hr]
    rfl
  | conflict cs =>
    refine ofJson_tagged (by decide) rfl (fun rest => rfl) fun r hr => ?_
    rw [required_eq Conflict.ofJson_toJson.list hr]
    rfl
  | failure ps =>
    refine ofJson_tagged (by decide) rfl (fun rest => rfl) fun r hr => ?_
    rw [required_eq Problem.ofJson_toJson.list hr]
    rfl

end Outcome

end Outcome

/-- Compact, laid out over lines, and laid out with a line end as in a file: each text of the
document is read as the value. -/
def ReadsBack {α : Type} (f : Json → Decoded α) (j : Json) (a : α) : Prop :=
  decode f j.compact = .ok a ∧ decode f j.pretty = .ok a ∧ decode f (j.pretty ++ "\n") = .ok a

theorem Json.Undoes.readsBack {α : Type} {f : Json → Decoded α} {g : α → Json} (h : Undoes f g)
    (a : α) : ReadsBack f (g a) a := by
  simp only [ReadsBack, decode, read_compact, read_pretty, read_pretty_newline]
  exact ⟨h a, h a, h a⟩

theorem decode_written :
    (∀ o : Outcome, ReadsBack Outcome.ofJson o.toJson o) ∧
    (∀ t : Topology, ReadsBack Topology.ofJson t.toJson t ∧
      decode Topology.ofJson t.fileText = .ok t) ∧
    (∀ labels : LabelDecls, ReadsBack (LabelDecls.ofJson 0) labels.toJson labels) ∧
    (∀ ir : IrFacts, ReadsBack (IrFacts.ofJson 0) ir.toJson ir) ∧
    ∀ pdg : PdgFacts, ReadsBack (PdgFacts.ofJson 0) pdg.toJson pdg := by
  have htopology := Topology.ofJson_toJson.readsBack
  refine ⟨Outcome.ofJson_toJson.readsBack, fun t => ⟨htopology t, (htopology t).2.2⟩, ?_, ?_, ?_⟩
  · exact (LabelDecls.ofJson_toJson (by decide)).readsBack
  · exact (IrFacts.ofJson_toJson (by decide)).readsBack
  · exact (PdgFacts.ofJson_toJson (by decide)).readsBack

end Enclave
