import Enclave.Json.Printer
import Enclave.Json.Reader
import Mathlib.Data.List.Basic

/-!
# Enclave.Proofs.Spelling

Documents and the texts that spell them. `Spells j cs` says that the characters `cs` are a way to
write the document `j`, with blanks wherever the grammar allows them. Both printers write a spelling
of their document, and the reader reads every spelling of a document back as that document, for all
documents: those with repeated names, with strings that spell no text and with numbers of any size
included.

* `read_compact`, `read_pretty`: what is printed is read back.
-/

namespace Enclave

namespace Json

section Text

theorem hexValue?_hexDigit : ∀ n < 16, hexValue? (hexDigit n) = some n := by decide

theorem readUnits_plain {c : Char} {rest : List Char} (hquote : c ≠ '"') (hback : c ≠ '\\')
    (hlow : ¬ c.toNat < 0x20) :
    readUnits (c :: rest) = (readUnits rest).map fun p => (c.toNat :: p.1, p.2) := by
  rw [readUnits.eq_def]
  split
  · simp_all
  · simp_all
  · simp_all
  · simp_all
  · rename_i c' rest' heq
    cases heq
    rw [if_neg hlow]
    cases readUnits rest <;> rfl

theorem readUnits_letter {c : Char} {unit : Nat} (h : escaped? c = some unit) (rest : List Char) :
    readUnits ('\\' :: c :: rest) = (readUnits rest).map fun p => (unit :: p.1, p.2) := by
  have hu : c ≠ 'u' := by
    rintro rfl
    cases h
  rw [readUnits.eq_def]
  split
  · simp_all
  · simp_all
  · simp_all
  · rename_i c' rest' heq
    cases heq
    rw [h]
    cases readUnits rest <;> rfl
  · rename_i hno heq
    cases heq
    exact absurd rfl (hno c rest rfl)

theorem readUnits_escapeChar (c : Char) (rest : List Char) :
    readUnits (escapeChar c ++ rest) = (readUnits rest).map fun p => (c.toNat :: p.1, p.2) := by
  unfold escapeChar
  split
  · subst_vars
    exact readUnits_letter rfl rest
  split
  · subst_vars
    exact readUnits_letter rfl rest
  split
  · subst_vars
    exact readUnits_letter rfl rest
  split
  · subst_vars
    exact readUnits_letter rfl rest
  split
  · subst_vars
    exact readUnits_letter rfl rest
  split
  · subst_vars
    exact readUnits_letter rfl rest
  split
  · subst_vars
    exact readUnits_letter rfl rest
  split
  · rename_i hlow
    have hzero : hexValue? '0' = some 0 := by decide
    have hhigh := hexValue?_hexDigit (c.toNat / 16) (by omega)
    have hrest := hexValue?_hexDigit (c.toNat % 16) (by omega)
    have hunit : c.toNat / 16 * 16 + c.toNat % 16 = c.toNat := by omega
    simp only [List.cons_append, List.nil_append, readUnits, hexUnit?, hzero, hhigh, hrest]
    cases readUnits rest <;> simp [hunit]
  · rename_i hquote hback _ _ _ _ _ hlow
    exact readUnits_plain hquote hback hlow

theorem readUnits_escape (cs rest : List Char) :
    readUnits (escape cs ++ '"' :: rest) = some (cs.map Char.toNat, rest) := by
  induction cs with
  | nil => simp [escape, readUnits]
  | cons c cs ih =>
    have hcons : escape (c :: cs) = escapeChar c ++ escape cs := by simp [escape]
    rw [hcons, List.append_assoc, readUnits_escapeChar, ih]
    rfl

theorem not_surrogate (c : Char) :
    isHighSurrogate c.toNat = false ∧ isLowSurrogate c.toNat = false := by
  have hvalid : c.toNat < 0xD800 ∨ 0xDFFF < c.toNat ∧ c.toNat < 0x110000 := c.valid
  simp only [isHighSurrogate, isLowSurrogate, Bool.and_eq_false_iff, decide_eq_false_iff_not]
  omega

theorem textOfUnits_map (cs : List Char) : textOfUnits (cs.map Char.toNat) = some cs := by
  induction cs with
  | nil => rfl
  | cons c cs ih =>
    obtain ⟨hhigh, hlow⟩ := not_surrogate c
    cases cs with
    | nil => simp [textOfUnits, hhigh, hlow]
    | cons d ds =>
      simp only [List.map_cons] at ih ⊢
      simp [textOfUnits, hhigh, hlow, ih]

/-- What is written between quotes is read back, also where it spells no text. -/
theorem exists_printText (text : Option String) : ∃ body, printText text = '"' :: body ∧
    ∀ rest, readText (body ++ rest) = some (text, rest) := by
  cases text with
  | none =>
    refine ⟨"\\ud800\"".toList, by decide, fun rest => ?_⟩
    simp [readText, readUnits, hexUnit?, hexValue?, textOfUnits, isHighSurrogate]
  | some s =>
    refine ⟨escape s.toList ++ ['"'], rfl, fun rest => ?_⟩
    rw [List.append_assoc, List.singleton_append, readText, readUnits_escape]
    simp [textOfUnits_map, String.ofList_toList]

end Text

section Numbers

theorem natOfDigits_toDigits (n : Nat) : natOfDigits (Nat.toDigits 10 n) = n := by
  have h : Nat.ofDigitChars 10 (Nat.toDigits 10 n) 0 = n := Nat.ofDigitChars_ten_toDigits
  rw [Nat.ofDigitChars_eq_foldl] at h
  simpa [natOfDigits, Nat.mul_comm] using h

theorem isDigit_of_mem {n : Nat} {c : Char} (h : c ∈ Nat.toDigits 10 n) : c.isDigit = true :=
  Nat.isDigit_of_mem_toDigits (by omega) (by omega) h

theorem head_toDigits {n : Nat} (hn : 0 < n) : (Nat.toDigits 10 n).head? ≠ some '0' := by
  induction n using Nat.strongRecOn with
  | ind n ih =>
    rw [Nat.toDigits_eq_if (by omega)]
    split
    · simpa [Nat.digitChar_eq_zero] using Nat.pos_iff_ne_zero.1 hn
    · have hhead := ih (n / 10) (by omega) (by omega)
      have hne : Nat.toDigits 10 (n / 10) ≠ [] := Nat.toDigits_ne_nil
      rwa [List.head?_append_of_ne_nil _ hne]

theorem toDigits_cases (n : Nat) : Nat.toDigits 10 n = ['0'] ∨
    ∃ d ds, Nat.toDigits 10 n = d :: ds ∧ d ≠ '0' ∧ d.isDigit = true := by
  rcases Nat.eq_zero_or_pos n with rfl | hn
  · exact .inl rfl
  · cases h : Nat.toDigits 10 n with
    | nil => exact absurd h Nat.toDigits_ne_nil
    | cons d ds =>
      have hhead := head_toDigits hn
      rw [h] at hhead
      exact .inr ⟨d, ds, rfl, by simpa using hhead, isDigit_of_mem (n := n) (by simp [h])⟩

theorem toDigits_append_ne {n : Nat} {c : Char} (hc : c.isDigit = false) (rest cs : List Char) :
    Nat.toDigits 10 n ++ rest ≠ c :: cs := by
  intro h
  rcases toDigits_cases n with hzero | ⟨d, ds, hds, -, hdigit⟩
  · rw [hzero, List.cons_append, List.cons.injEq] at h
    rw [← h.1] at hc
    cases hc
  · rw [hds, List.cons_append, List.cons.injEq] at h
    rw [h.1, hc] at hdigit
    cases hdigit

/-- The text does not go on with a digit, a fraction or an exponent. -/
def Stops (cs : List Char) : Prop :=
  ∀ c ∈ cs.head?, c.isDigit = false ∧ c ≠ '.' ∧ c ≠ 'e' ∧ c ≠ 'E'

theorem spanDigits_append {ds rest : List Char} (hds : ∀ c ∈ ds, c.isDigit = true)
    (hrest : ∀ c ∈ rest.head?, c.isDigit = false) : spanDigits (ds ++ rest) = (ds, rest) := by
  rw [spanDigits, List.takeWhile_append_of_pos hds, List.dropWhile_append_of_pos hds]
  cases rest with
  | nil => simp
  | cons c cs => simp [hrest c rfl]

theorem readFraction_of_stops {cs : List Char} (h : ∀ c ∈ cs.head?, c ≠ '.') :
    readFraction cs = some (none, cs) := by
  rw [readFraction.eq_def]
  split
  · exact absurd rfl (h '.' rfl)
  · rfl

theorem readExponent_of_stops {cs : List Char} (h : ∀ c ∈ cs.head?, c ≠ 'e' ∧ c ≠ 'E') :
    readExponent cs = some (none, cs) := by
  cases cs with
  | nil => rfl
  | cons c cs =>
    have := h c rfl
    simp [readExponent, this]

def ofParts (negative : Bool) (n : Nat) : Option Int → Json
  | none => if negative then if n = 0 then .decimal true 0 0 else .int (-(n : Int)) else .int n
  | some e => .decimal negative n e

theorem readNumber_toDigits (negative : Bool) (n : Nat) {rest : List Char}
    (hrest : ∀ c ∈ rest.head?, c.isDigit = false ∧ c ≠ '.') :
    readNumber ((if negative then ['-'] else []) ++ (Nat.toDigits 10 n ++ rest)) =
      (readExponent rest).map fun p => (ofParts negative n p.1, p.2) := by
  have hdigits : ∀ c ∈ Nat.toDigits 10 n, c.isDigit = true := fun c hc => isDigit_of_mem hc
  have hspan := spanDigits_append hdigits fun c hc => (hrest c hc).1
  have hfraction := readFraction_of_stops fun c hc => (hrest c hc).2
  have hvalue := natOfDigits_toDigits n
  have hcases := toDigits_cases n
  have hsign := fun cs => toDigits_append_ne (n := n) (c := '-') rfl rest cs
  generalize Nat.toDigits 10 n = ds at hspan hvalue hcases hsign ⊢
  unfold readNumber
  split
  rename_i negative' cs hsplit
  have hsplit : negative' = negative ∧ cs = ds ++ rest := by
    cases negative with
    | true =>
      cases hsplit
      exact ⟨rfl, rfl⟩
    | false =>
      simp only [Bool.false_eq_true, if_false, List.nil_append] at hsplit
      cases hsplit
      exact ⟨rfl, rfl⟩
  obtain ⟨rfl, rfl⟩ := hsplit
  rw [hspan]
  split
  · simp_all
  · simp_all
  · rename_i heq
    cases heq
    rw [hfraction]
    cases hexponent : readExponent rest with
    | none => simp [hexponent]
    | some p =>
      obtain ⟨e, rest'⟩ := p
      cases e <;> cases negative' <;> simp [hexponent, ofParts, hvalue]

theorem printInt_append (z : Int) (rest : List Char) : printInt z ++ rest =
    (if decide (z < 0) then ['-'] else []) ++ (Nat.toDigits 10 z.natAbs ++ rest) := by
  by_cases hz : z < 0 <;> simp [printInt, hz]

theorem printDecimal_append (negative : Bool) (digits : Nat) (exponent : Int) (rest : List Char) :
    printDecimal negative digits exponent ++ rest = (if negative then ['-'] else []) ++
      (Nat.toDigits 10 digits ++ 'e' :: (printInt exponent ++ rest)) := by
  simp [printDecimal]

theorem readNumber_printInt (z : Int) {rest : List Char} (hrest : Stops rest) :
    readNumber (printInt z ++ rest) = some (.int z, rest) := by
  have hdigits : ∀ c ∈ rest.head?, c.isDigit = false ∧ c ≠ '.' :=
    fun c hc => ⟨(hrest c hc).1, (hrest c hc).2.1⟩
  have hexponent := readExponent_of_stops fun c hc => (hrest c hc).2.2
  rw [printInt_append, readNumber_toDigits _ _ hdigits, hexponent]
  by_cases hz : z < 0
  · have hne : z.natAbs ≠ 0 := by omega
    have habs : -(z.natAbs : Int) = z := by omega
    simp only [hz, decide_true, Option.map_some, ofParts, hne, habs]
    rfl
  · have habs : (z.natAbs : Int) = z := by omega
    simp only [hz, decide_false, Option.map_some, ofParts, habs]
    rfl

theorem readExponentDigits_printInt (z : Int) {rest : List Char} (hrest : Stops rest) :
    readExponentDigits (printInt z ++ rest) = some (z, rest) := by
  have hspan := spanDigits_append (fun c hc => isDigit_of_mem (n := z.natAbs) hc)
    fun c hc => (hrest c hc).1
  have hvalue := natOfDigits_toDigits z.natAbs
  have hminus := fun cs => toDigits_append_ne (n := z.natAbs) (c := '-') rfl rest cs
  have hplus := fun cs => toDigits_append_ne (n := z.natAbs) (c := '+') rfl rest cs
  have hne : Nat.toDigits 10 z.natAbs ≠ [] := Nat.toDigits_ne_nil
  unfold readExponentDigits printInt
  generalize Nat.toDigits 10 z.natAbs = ds at hspan hvalue hminus hplus hne ⊢
  by_cases hz : z < 0
  · have habs : -(z.natAbs : Int) = z := by omega
    simp only [hz, if_true, List.cons_append, hspan, hvalue, habs]
  · have habs : (z.natAbs : Int) = z := by omega
    simp only [hz, if_false, hspan, hvalue, habs, Bool.false_eq_true]

theorem readNumber_printDecimal (negative : Bool) (digits : Nat) (exponent : Int)
    {rest : List Char} (hrest : Stops rest) :
    readNumber (printDecimal negative digits exponent ++ rest) =
      some (.decimal negative digits exponent, rest) := by
  have hmark : ∀ c ∈ ('e' :: (printInt exponent ++ rest)).head?, c.isDigit = false ∧ c ≠ '.' := by
    intro c hc
    cases hc
    decide
  rw [printDecimal_append, readNumber_toDigits _ _ hmark]
  simp [readExponent, readExponentDigits_printInt exponent hrest, ofParts]

end Numbers

section Grammar

def Blank (cs : List Char) : Prop := ∀ c ∈ cs, isBlank c = true

mutual

/-- The characters are a way to write the document. -/
inductive Spells : Json → List Char → Prop where
  | null : Spells .null "null".toList
  | bool (b : Bool) : Spells (.bool b) (printBool b)
  | int (z : Int) : Spells (.int z) (printInt z)
  | decimal (negative : Bool) (digits : Nat) (exponent : Int) :
      Spells (.decimal negative digits exponent) (printDecimal negative digits exponent)
  | str (text : Option String) : Spells (.str text) (printText text)
  | arrNil : Spells (.arr []) ['[', ']']
  | arrCons {j : Json} {js : List Json} {bs cs ds : List Char} (hb : Blank bs) (hj : Spells j cs)
      (hjs : SpellsItems js ds) : Spells (.arr (j :: js)) ('[' :: (bs ++ (cs ++ ds)))
  | objNil : Spells (.obj []) ['{', '}']
  | objCons {name : Option String} {j : Json} {ms : List (Option String × Json)}
      {bs bs' cs ds : List Char} (hb : Blank bs) (hb' : Blank bs') (hj : Spells j cs)
      (hms : SpellsMembers ms ds) : Spells (.obj ((name, j) :: ms))
        ('{' :: (bs ++ (printText name ++ ':' :: (bs' ++ (cs ++ ds)))))

/-- The characters are a way to write the items that follow the first, and to close the array. -/
inductive SpellsItems : List Json → List Char → Prop where
  | nil {bs : List Char} (hb : Blank bs) : SpellsItems [] (bs ++ [']'])
  | cons {j : Json} {js : List Json} {bs cs ds : List Char} (hb : Blank bs) (hj : Spells j cs)
      (hjs : SpellsItems js ds) : SpellsItems (j :: js) (',' :: (bs ++ (cs ++ ds)))

/-- The characters are a way to write the members that follow the first, and to close the object. -/
inductive SpellsMembers : List (Option String × Json) → List Char → Prop where
  | nil {bs : List Char} (hb : Blank bs) : SpellsMembers [] (bs ++ ['}'])
  | cons {name : Option String} {j : Json} {ms : List (Option String × Json)}
      {bs bs' cs ds : List Char} (hb : Blank bs) (hb' : Blank bs') (hj : Spells j cs)
      (hms : SpellsMembers ms ds) : SpellsMembers ((name, j) :: ms)
        (',' :: (bs ++ (printText name ++ ':' :: (bs' ++ (cs ++ ds)))))

end

theorem blank_nil : Blank [] := by simp [Blank]

theorem blank_newLine (level : Nat) : Blank (newLine level) := by
  intro c hc
  simp only [newLine, List.mem_cons, List.mem_replicate] at hc
  rcases hc with rfl | ⟨-, rfl⟩ <;> rfl

theorem blank_space : Blank [' '] := by
  intro c hc
  rw [List.mem_singleton.1 hc]
  rfl

mutual

theorem spells_printCompact : ∀ j : Json, Spells j j.printCompact
  | .null => .null
  | .bool b => .bool b
  | .int z => .int z
  | .decimal negative digits exponent => .decimal negative digits exponent
  | .str text => .str text
  | .arr [] => .arrNil
  | .arr (j :: js) => .arrCons blank_nil (spells_printCompact j) (spells_printItems js)
  | .obj [] => .objNil
  | .obj ((_, j) :: ms) =>
    .objCons blank_nil blank_nil (spells_printCompact j) (spells_printMembers ms)

theorem spells_printItems : ∀ js : List Json, SpellsItems js (printItems js)
  | [] => .nil blank_nil
  | j :: js => .cons blank_nil (spells_printCompact j) (spells_printItems js)

theorem spells_printMembers : ∀ ms : List (Option String × Json),
    SpellsMembers ms (printMembers ms)
  | [] => .nil blank_nil
  | (_, j) :: ms => .cons blank_nil blank_nil (spells_printCompact j) (spells_printMembers ms)

end

mutual

theorem spells_printPretty (level : Nat) : ∀ j : Json, Spells j (j.printPretty level)
  | .null => .null
  | .bool b => .bool b
  | .int z => .int z
  | .decimal negative digits exponent => .decimal negative digits exponent
  | .str text => .str text
  | .arr [] => .arrNil
  | .arr (j :: js) =>
    .arrCons (blank_newLine _) (spells_printPretty (level + 1) j) (spells_prettyItems level js)
  | .obj [] => .objNil
  | .obj ((_, j) :: ms) =>
    .objCons (blank_newLine _) blank_space (spells_printPretty (level + 1) j)
      (spells_prettyMembers level ms)

theorem spells_prettyItems (level : Nat) : ∀ js : List Json, SpellsItems js (prettyItems level js)
  | [] => .nil (blank_newLine level)
  | j :: js =>
    .cons (blank_newLine _) (spells_printPretty (level + 1) j) (spells_prettyItems level js)

theorem spells_prettyMembers (level : Nat) : ∀ ms : List (Option String × Json),
    SpellsMembers ms (prettyMembers level ms)
  | [] => .nil (blank_newLine level)
  | (_, j) :: ms =>
    .cons (blank_newLine _) blank_space (spells_printPretty (level + 1) j)
      (spells_prettyMembers level ms)

end

end Grammar

section Reading

variable {fuel : Nat} {c : Char} {bs cs rest : List Char} {j : Json}

theorem skipBlank_append (hb : Blank bs) : skipBlank (bs ++ cs) = skipBlank cs := by
  rw [skipBlank, List.dropWhile_append_of_pos hb, skipBlank]

theorem skipBlank_cons (hc : isBlank c = false) : skipBlank (c :: cs) = c :: cs := by
  simp [skipBlank, hc]

theorem skipBlank_mark (hb : Blank bs) (hc : isBlank c = false) :
    skipBlank (bs ++ c :: cs) = c :: cs := by
  rw [skipBlank_append hb, skipBlank_cons hc]

theorem ne_of_isDigit {d : Char} (hc : c.isDigit = true) (hd : d.isDigit = false) : c ≠ d := by
  rintro rfl
  rw [hd] at hc
  cases hc

theorem isBlank_of_isDigit (hc : c.isDigit = true) : isBlank c = false := by
  simp [isBlank, ne_of_isDigit hc (d := ' ') rfl, ne_of_isDigit hc (d := '\n') rfl,
    ne_of_isDigit hc (d := '\t') rfl, ne_of_isDigit hc (d := '\r') rfl]

theorem head_number (negative : Bool) (n : Nat) (rest : List Char) :
    ∃ c ds, (if negative then ['-'] else []) ++ (Nat.toDigits 10 n ++ rest) = c :: ds ∧
      (c.isDigit = true ∨ c = '-') := by
  cases negative with
  | true => exact ⟨'-', _, rfl, .inr rfl⟩
  | false =>
    rcases toDigits_cases n with hzero | ⟨d, ds, hds, -, hdigit⟩
    · exact ⟨'0', rest, by rw [hzero]; rfl, .inl rfl⟩
    · exact ⟨d, ds ++ rest, by rw [hds]; rfl, .inl hdigit⟩

theorem Spells.head (h : Spells j cs) :
    ∃ c ds, cs = c :: ds ∧ isBlank c = false ∧ c ≠ ']' := by
  have hnumber : ∀ {cs : List Char}, (∃ c ds, cs = c :: ds ∧ (c.isDigit = true ∨ c = '-')) →
      ∃ c ds, cs = c :: ds ∧ isBlank c = false ∧ c ≠ ']' := by
    rintro cs ⟨c, ds, hcs, hdigit | rfl⟩
    · exact ⟨c, ds, hcs, isBlank_of_isDigit hdigit, ne_of_isDigit hdigit rfl⟩
    · exact ⟨'-', ds, hcs, by decide⟩
  cases h with
  | null => exact ⟨'n', _, rfl, by decide⟩
  | bool b => cases b <;> exact ⟨_, _, rfl, by decide⟩
  | int z =>
    have h := head_number (decide (z < 0)) z.natAbs []
    rw [← printInt_append, List.append_nil] at h
    exact hnumber h
  | decimal negative digits exponent =>
    have h := head_number negative digits ('e' :: (printInt exponent ++ []))
    rw [← printDecimal_append, List.append_nil] at h
    exact hnumber h
  | str text =>
    obtain ⟨body, hbody, -⟩ := exists_printText text
    exact ⟨'"', body, hbody, by decide⟩
  | arrNil => exact ⟨'[', _, rfl, by decide⟩
  | arrCons => exact ⟨'[', _, rfl, by decide⟩
  | objNil => exact ⟨'{', _, rfl, by decide⟩
  | objCons => exact ⟨'{', _, rfl, by decide⟩

theorem readValue_skip (hb : Blank bs) :
    readValue (fuel + 1) (bs ++ cs) = readValue (fuel + 1) cs := by
  rw [readValue, readValue, skipBlank_append hb]

theorem readValue_number (hc : c.isDigit = true ∨ c = '-') :
    readValue (fuel + 1) (c :: cs) = readNumber (c :: cs) := by
  rcases hc with hc | rfl
  · have hne : ∀ d : Char, d.isDigit = false → c ≠ d := fun d hd => ne_of_isDigit hc hd
    rw [readValue, skipBlank_cons (isBlank_of_isDigit hc)]
    simp [hne '"' rfl, hne '[' rfl, hne '{' rfl, hne 'n' rfl, hne 't' rfl, hne 'f' rfl]
  · rw [readValue, skipBlank_cons (by decide)]
    simp

theorem readValue_array : readValue (fuel + 1) ('[' :: cs) = readArray fuel cs := by
  rw [readValue, skipBlank_cons (by decide)]
  simp

theorem readValue_object : readValue (fuel + 1) ('{' :: cs) = readObject fuel cs := by
  rw [readValue, skipBlank_cons (by decide)]
  simp

theorem readArray_cons {js : List Json} {ds more : List Char} (hb : Blank bs) (hj : Spells j cs)
    (hvalue : readValue fuel (bs ++ (cs ++ more)) = some (j, more))
    (hitems : readItems fuel more = some (js, ds)) :
    readArray (fuel + 1) (bs ++ (cs ++ more)) = some (.arr (j :: js), ds) := by
  obtain ⟨c, cs', rfl, hc, hclose⟩ := hj.head
  have hskip : skipBlank (bs ++ (c :: cs' ++ more)) = c :: (cs' ++ more) := skipBlank_mark hb hc
  rw [readArray, hskip]
  split
  · rename_i heq
    cases heq
    exact absurd rfl hclose
  · rw [hvalue]
    simp [hitems]

theorem readItems_nil (hb : Blank bs) :
    readItems (fuel + 1) (bs ++ ']' :: rest) = some ([], rest) := by
  rw [readItems, skipBlank_mark hb (by decide)]
  rfl

theorem readItems_cons {js : List Json} {more : List Char}
    (hvalue : readValue fuel cs = some (j, more)) (hitems : readItems fuel more = some (js, rest)) :
    readItems (fuel + 1) (',' :: cs) = some (j :: js, rest) := by
  rw [readItems, skipBlank_cons (by decide)]
  simp [hvalue, hitems]

theorem readMember_eq {name : Option String} (hb : Blank bs)
    (hvalue : readValue fuel cs = some (j, rest)) :
    readMember (fuel + 1) (bs ++ (printText name ++ ':' :: cs)) = some ((name, j), rest) := by
  obtain ⟨body, hprint, hread⟩ := exists_printText name
  rw [hprint, readMember, List.cons_append, skipBlank_mark hb (by decide)]
  simp [hread, skipBlank_cons (c := ':') (by decide), hvalue]

theorem readObject_cons {m : Option String × Json} {ms : List (Option String × Json)}
    {name : Option String} {ds more : List Char} (hb : Blank bs)
    (hmember : readMember fuel (bs ++ (printText name ++ cs)) = some (m, more))
    (hmembers : readMembers fuel more = some (ms, ds)) :
    readObject (fuel + 1) (bs ++ (printText name ++ cs)) = some (.obj (m :: ms), ds) := by
  obtain ⟨body, hprint, -⟩ := exists_printText name
  have hskip : skipBlank (bs ++ (printText name ++ cs)) = '"' :: (body ++ cs) := by
    rw [hprint]
    exact skipBlank_mark hb (by decide)
  rw [readObject, hskip]
  simp [hmember, hmembers]

theorem readMembers_nil (hb : Blank bs) :
    readMembers (fuel + 1) (bs ++ '}' :: rest) = some ([], rest) := by
  rw [readMembers, skipBlank_mark hb (by decide)]
  rfl

theorem readMembers_cons {m : Option String × Json} {ms : List (Option String × Json)}
    {more : List Char} (hmember : readMember fuel cs = some (m, more))
    (hmembers : readMembers fuel more = some (ms, rest)) :
    readMembers (fuel + 1) (',' :: cs) = some (m :: ms, rest) := by
  rw [readMembers, skipBlank_cons (by decide)]
  simp [hmember, hmembers]

theorem stops_blank (hb : Blank bs) : Stops bs := by
  intro c hc
  have hblank := hb c (List.mem_of_mem_head? hc)
  simp only [isBlank, Bool.or_eq_true, decide_eq_true_eq] at hblank
  rcases hblank with ((rfl | rfl) | rfl) | rfl <;> decide

theorem stops_mark (hb : Blank bs) (hc : c.isDigit = false ∧ c ≠ '.' ∧ c ≠ 'e' ∧ c ≠ 'E') :
    Stops (bs ++ c :: cs) := by
  cases bs with
  | nil =>
    intro d hd
    cases hd
    exact hc
  | cons b bs => exact fun d hd => stops_blank hb d hd

theorem stops_items {js : List Json} (h : SpellsItems js cs) : Stops (cs ++ rest) := by
  cases h with
  | nil hb =>
    rw [List.append_assoc]
    exact stops_mark hb (by decide)
  | cons => exact stops_mark blank_nil (by decide)

theorem stops_members {ms : List (Option String × Json)} (h : SpellsMembers ms cs) :
    Stops (cs ++ rest) := by
  cases h with
  | nil hb =>
    rw [List.append_assoc]
    exact stops_mark hb (by decide)
  | cons => exact stops_mark blank_nil (by decide)

mutual

/-- A level takes two steps down and at least one character, so twice the length is enough fuel. -/
theorem Spells.read {j : Json} {cs : List Char} (h : Spells j cs) {fuel : Nat}
    {bs rest : List Char} (hfuel : 2 * cs.length ≤ fuel) (hb : Blank bs) (hrest : Stops rest) :
    readValue fuel (bs ++ (cs ++ rest)) = some (j, rest) := by
  obtain ⟨c, ds, hcs, -⟩ := h.head
  obtain ⟨fuel, rfl⟩ : ∃ n, fuel = n + 1 := ⟨fuel - 1, by simp [hcs] at hfuel; omega⟩
  rw [readValue_skip hb]
  cases h with
  | null => simp [readValue, skipBlank_cons (c := 'n') (by decide)]
  | bool b => cases b <;> simp [printBool, readValue, skipBlank, isBlank]
  | int z =>
    obtain ⟨c, ds, hz, hc⟩ := head_number (decide (z < 0)) z.natAbs rest
    rw [← readNumber_printInt z hrest, printInt_append, hz, readValue_number hc]
  | decimal negative digits exponent =>
    obtain ⟨c, ds, hn, hc⟩ := head_number negative digits ('e' :: (printInt exponent ++ rest))
    rw [← readNumber_printDecimal negative digits exponent hrest, printDecimal_append, hn,
      readValue_number hc]
  | str text =>
    obtain ⟨body, hprint, hread⟩ := exists_printText text
    simp [hprint, readValue, skipBlank_cons (c := '"') (by decide), hread]
  | arrNil =>
    obtain ⟨fuel, rfl⟩ : ∃ n, fuel = n + 1 := ⟨fuel - 1, by simp at hfuel; omega⟩
    rw [List.cons_append, readValue_array, readArray, List.cons_append, skipBlank_cons (by decide)]
    rfl
  | @arrCons j js bs cs ds hb hj hjs =>
    simp only [List.length_cons, List.length_append] at hfuel
    obtain ⟨fuel, rfl⟩ : ∃ n, fuel = n + 1 := ⟨fuel - 1, by omega⟩
    have hitems : readItems fuel (ds ++ rest) = some (js, rest) := hjs.read (by omega)
    have hvalue : readValue fuel (bs ++ (cs ++ (ds ++ rest))) = some (j, ds ++ rest) :=
      hj.read (by omega) hb (stops_items hjs)
    rw [List.cons_append, List.append_assoc, List.append_assoc, readValue_array]
    exact readArray_cons hb hj hvalue hitems
  | objNil =>
    obtain ⟨fuel, rfl⟩ : ∃ n, fuel = n + 1 := ⟨fuel - 1, by simp at hfuel; omega⟩
    rw [List.cons_append, readValue_object, readObject, List.cons_append,
      skipBlank_cons (by decide)]
    rfl
  | @objCons name j ms bs bs' cs ds hb hb' hj hms =>
    simp only [List.length_cons, List.length_append] at hfuel
    obtain ⟨fuel, rfl⟩ : ∃ n, fuel = n + 2 := ⟨fuel - 2, by omega⟩
    have hmembers : readMembers (fuel + 1) (ds ++ rest) = some (ms, rest) := hms.read (by omega)
    have hvalue : readValue fuel (bs' ++ (cs ++ (ds ++ rest))) = some (j, ds ++ rest) :=
      hj.read (by omega) hb' (stops_members hms)
    simp only [List.cons_append, List.append_assoc]
    rw [readValue_object]
    exact readObject_cons hb (readMember_eq hb hvalue) hmembers

theorem SpellsItems.read {js : List Json} {cs : List Char} (h : SpellsItems js cs) {fuel : Nat}
    {rest : List Char} (hfuel : 2 * cs.length ≤ fuel) :
    readItems fuel (cs ++ rest) = some (js, rest) := by
  cases h with
  | @nil bs hb =>
    obtain ⟨fuel, rfl⟩ : ∃ n, fuel = n + 1 := ⟨fuel - 1, by simp at hfuel; omega⟩
    rw [List.append_assoc]
    exact readItems_nil hb
  | @cons j js bs cs ds hb hj hjs =>
    simp only [List.length_cons, List.length_append] at hfuel
    obtain ⟨fuel, rfl⟩ : ∃ n, fuel = n + 1 := ⟨fuel - 1, by omega⟩
    have hitems : readItems fuel (ds ++ rest) = some (js, rest) := hjs.read (by omega)
    have hvalue : readValue fuel (bs ++ (cs ++ (ds ++ rest))) = some (j, ds ++ rest) :=
      hj.read (by omega) hb (stops_items hjs)
    rw [List.cons_append, List.append_assoc, List.append_assoc]
    exact readItems_cons hvalue hitems

theorem SpellsMembers.read {ms : List (Option String × Json)} {cs : List Char}
    (h : SpellsMembers ms cs) {fuel : Nat} {rest : List Char} (hfuel : 2 * cs.length ≤ fuel) :
    readMembers fuel (cs ++ rest) = some (ms, rest) := by
  cases h with
  | @nil bs hb =>
    obtain ⟨fuel, rfl⟩ : ∃ n, fuel = n + 1 := ⟨fuel - 1, by simp at hfuel; omega⟩
    rw [List.append_assoc]
    exact readMembers_nil hb
  | @cons name j ms bs bs' cs ds hb hb' hj hms =>
    simp only [List.length_cons, List.length_append] at hfuel
    obtain ⟨fuel, rfl⟩ : ∃ n, fuel = n + 2 := ⟨fuel - 2, by omega⟩
    have hmembers : readMembers (fuel + 1) (ds ++ rest) = some (ms, rest) := hms.read (by omega)
    have hvalue : readValue fuel (bs' ++ (cs ++ (ds ++ rest))) = some (j, ds ++ rest) :=
      hj.read (by omega) hb' (stops_members hms)
    simp only [List.cons_append, List.append_assoc]
    exact readMembers_cons (readMember_eq hb hvalue) hmembers

end

theorem Spells.readChars (h : Spells j cs) (hb : Blank bs) : readChars (cs ++ bs) = some j := by
  have hread : readValue (3 * (cs ++ bs).length + 3) ([] ++ (cs ++ bs)) = some (j, bs) :=
    h.read (by simp; omega) blank_nil (stops_blank hb)
  rw [List.nil_append] at hread
  have hrest : skipBlank bs = [] := by
    rw [← List.append_nil bs, skipBlank_append hb]
    rfl
  rw [Json.readChars, hread]
  simp [hrest]

theorem read_compact (j : Json) : read j.compact = some j := by
  rw [read, compact, String.toList_ofList, ← List.append_nil j.printCompact]
  exact (spells_printCompact j).readChars blank_nil

theorem read_pretty (j : Json) : read j.pretty = some j := by
  rw [read, pretty, String.toList_ofList, ← List.append_nil (j.printPretty 0)]
  exact (spells_printPretty 0 j).readChars blank_nil

theorem read_pretty_newline (j : Json) : read (j.pretty ++ "\n") = some j := by
  rw [read, pretty, String.toList_append, String.toList_ofList]
  exact (spells_printPretty 0 j).readChars (blank_newLine 0)

end Reading

end Json

end Enclave
