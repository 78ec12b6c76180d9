import Enclave.Files.Path
import Mathlib.Data.String.Basic

/-!
# Enclave.Proofs.Paths

What a path becomes when it is seen from a directory. A path is read through the parts between its
slashes, and joining two paths puts their parts one after the other, however each of them is
written; so the components of a path that was joined are known without looking at its text.
-/

namespace Enclave

open Std

namespace Path

namespace Component

attribute [local instance] lexOrd

theorem key_injective {c d : Component} (h : c.key = d.key) : c = d := by
  cases c <;> cases d <;> simp_all [key]

instance : TransOrd Component := inferInstanceAs (TransCmp (compareOn key))

instance : LawfulEqOrd Component where
  eq_of_compare h := key_injective (LawfulEqOrd.eq_of_compare h)

theorem name_ofName (name : String) : (ofName name).name = name := by
  rw [ofName]
  split
  · rename_i h
    rw [h]
    rfl
  · rfl

end Component

section Splitting

open String

/-- What lies before the part that is being read, that part so far, and the text that is left. -/
theorem splitOnAux_slash (before part rest : List Char) (found : List String) :
    splitOnAux (ofList (before ++ part ++ rest)) "/" ⟨utf8Len before⟩
        ⟨utf8Len before + utf8Len part⟩ 0 found =
      found.reverse ++ (List.splitOnPPrepend (· == '/') rest part.reverse).map ofList := by
  induction rest generalizing before part found with
  | nil =>
    have hend : Pos.Raw.atEnd (ofList (before ++ part ++ []))
        ⟨utf8Len before + utf8Len part⟩ = true := by
      rw [atEnd_iff, rawEndPos_ofList]
      simp
    rw [splitOnAux, if_pos hend, extract_of_valid]
    simp
  | cons c rest ih =>
    have hend : ¬ Pos.Raw.atEnd (ofList (before ++ part ++ c :: rest))
        ⟨utf8Len before + utf8Len part⟩ = true := by
      have hsize := c.utf8Size_pos
      rw [atEnd_iff, rawEndPos_ofList, Pos.Raw.mk_le_mk]
      simp only [utf8Len_append, utf8Len_cons]
      omega
    have hget : Pos.Raw.get (ofList (before ++ part ++ c :: rest))
        ⟨utf8Len before + utf8Len part⟩ = c := by
      rw [← utf8Len_append, get_of_valid]
      rfl
    have hnext : Pos.Raw.next (ofList (before ++ part ++ c :: rest))
        ⟨utf8Len before + utf8Len part⟩ = ⟨utf8Len before + utf8Len part + c.utf8Size⟩ := by
      rw [← utf8Len_append, next_of_valid]
    have hslash : Pos.Raw.get "/" 0 = '/' := by decide
    rw [splitOnAux, if_neg hend, hget, hslash]
    by_cases hc : c = '/'
    · subst hc
      have hback : (⟨utf8Len before + utf8Len part + Char.utf8Size '/'⟩ : Pos.Raw).unoffsetBy
          (Pos.Raw.next "/" 0) = ⟨utf8Len before + utf8Len part⟩ := rfl
      have hnew := ih (before ++ part ++ ['/']) [] (ofList part :: found)
      rw [if_pos (by decide), List.splitOnPPrepend_cons_pos (by decide)]
      simp only [hnext, hback, extract_of_valid]
      rw [if_pos (by decide)]
      simpa [Nat.add_assoc] using hnew
    · have hstay : (⟨utf8Len before + utf8Len part⟩ : Pos.Raw).unoffsetBy 0 =
          ⟨utf8Len before + utf8Len part⟩ := rfl
      have hnew := ih before (part ++ [c]) found
      rw [if_neg (by simpa using hc), List.splitOnPPrepend_cons_neg (by simpa using hc), hstay,
        hnext]
      simpa [Nat.add_assoc] using hnew

theorem splitOn_slash (path : String) :
    path.splitOn "/" = (path.toList.splitOn '/').map ofList := by
  have h := splitOnAux_slash [] [] path.toList []
  simp only [List.nil_append, ofList_toList, List.reverse_nil, utf8Len_nil] at h
  rw [splitOn, if_neg (by decide)]
  exact h

end Splitting

variable {base file name : String}

theorem parts_append_slash (p q : String) : parts (p ++ "/" ++ q) = parts p ++ parts q := by
  have htext : (p ++ "/" ++ q).toList = p.toList ++ '/' :: q.toList := by simp
  simp only [parts, splitOn_slash, htext, List.splitOn_append_cons_self, List.map_append,
    List.filter_append]

theorem parts_empty : parts "" = [] := by
  rw [parts, splitOn_slash, String.toList_empty, List.splitOn_nil]
  rfl

theorem parts_of_undivided (hne : name ≠ "") (h : '/' ∉ name.toList) : parts name = [name] := by
  rw [parts, splitOn_slash, List.splitOn_eq_singleton h, List.map_singleton, String.ofList_toList,
    List.filter_cons_of_pos (by simpa using hne), List.filter_nil]

theorem ne_empty_of_mem_parts {part path : String} (h : part ∈ parts path) : part ≠ "" := by
  simpa using (List.mem_filter.1 h).2

theorem parts_join (h : isAbsolute file = false) :
    parts (join base file) = parts base ++ parts file := by
  rw [join, h, if_neg Bool.false_ne_true]
  split
  · rename_i hbase
    rcases Bool.or_eq_true_iff.1 hbase with hempty | hslash
    · rw [String.isEmpty_iff] at hempty
      rw [hempty, parts_empty, String.empty_append, List.nil_append]
    · -- the slash at the end of the base is the one between the two
      obtain ⟨cs, hcs⟩ := List.getLast?_eq_some_iff.1 (beq_iff_eq.1 hslash)
      have hbase : base = String.ofList cs ++ "/" := by
        rw [← String.toList_inj, hcs, String.toList_append, String.toList_ofList]
        rfl
      have hparts := parts_append_slash (String.ofList cs) ""
      rw [String.append_empty, parts_empty, List.append_nil] at hparts
      rw [hbase, parts_append_slash, hparts]
  · exact parts_append_slash base file

theorem isAbsolute_join (h : isAbsolute file = false) :
    isAbsolute (join base file) = isAbsolute base := by
  rw [join, h, if_neg Bool.false_ne_true]
  by_cases hempty : base = ""
  · subst hempty
    rw [if_pos (by rfl), String.empty_append, h]
    rfl
  · have hhead : ∀ rest : String, isAbsolute (base ++ rest) = isAbsolute base := by
      intro rest
      have hne : base.toList ≠ [] := by simpa using hempty
      rw [isAbsolute, String.toList_append, List.head?_append_of_ne_nil _ hne, isAbsolute]
    split
    · exact hhead file
    · rw [String.append_assoc]
      exact hhead _

theorem isAbsolute_join_of_absolute (h : isAbsolute base = true) (file : String) :
    isAbsolute (join base file) = true := by
  cases hfile : isAbsolute file with
  | true => rw [join, if_pos hfile, hfile]
  | false => rw [isAbsolute_join hfile, h]

/-- The parts of a path that are steps of it: all but the dots that lead nowhere. -/
def steps (path : String) : List String := (parts path).filter (· != ".")

theorem components_of_absolute {path : String} (h : isAbsolute path = true) :
    components path = .root :: (steps path).map Component.ofName := by
  rw [components, if_pos h]
  rfl

/-- A name that an entry of a directory can have. -/
structure IsName (name : String) : Prop where
  nonempty : name ≠ ""
  undivided : '/' ∉ name.toList
  not_here : name ≠ "."
  not_above : name ≠ ".."

instance (name : String) : Decidable (IsName name) :=
  decidable_of_iff (name ≠ "" ∧ '/' ∉ name.toList ∧ name ≠ "." ∧ name ≠ "..")
    ⟨fun ⟨h₁, h₂, h₃, h₄⟩ => ⟨h₁, h₂, h₃, h₄⟩, fun ⟨h₁, h₂, h₃, h₄⟩ => ⟨h₁, h₂, h₃, h₄⟩⟩

theorem IsName.isAbsolute_eq_false (h : IsName name) : isAbsolute name = false := by
  rw [isAbsolute, beq_eq_false_iff_ne]
  intro hhead
  exact h.undivided (List.mem_of_head? hhead)

theorem components_join (h : IsName name) (dir : String) :
    components (join dir name) = components dir ++ [.normal name] := by
  have hparts : parts (join dir name) = parts dir ++ [name] := by
    rw [parts_join h.isAbsolute_eq_false, parts_of_undivided h.nonempty h.undivided]
  have hname : (List.filter (· != ".") [name]).map Component.ofName = [.normal name] := by
    rw [List.filter_cons_of_pos (by simpa using h.not_here), List.filter_nil, List.map_singleton,
      Component.ofName, if_neg h.not_above]
  rw [components, components, isAbsolute_join h.isAbsolute_eq_false, hparts]
  split
  · simp only [List.filter_append, List.map_append, hname, List.cons_append]
  · cases parts dir with
    | nil =>
      rw [List.nil_append]
      split
      · rename_i ps hps
        cases hps
        exact absurd rfl h.not_here
      · exact hname
    | cons part ps =>
      by_cases hpart : part = "."
      · subst hpart
        simp only [List.cons_append, List.filter_append, List.map_append, hname]
      · have hne : ∀ qs rest : List String, part :: qs = "." :: rest → False := by
          intro qs rest heq
          cases heq
          exact hpart rfl
        rw [List.cons_append]
        split
        · rename_i heq
          exact (hne _ _ heq).elim
        · split
          · rename_i heq
            exact (hne _ _ heq).elim
          · simp only [← List.cons_append, List.filter_append, List.map_append, hname]

theorem components_foldl_join {names : List String} (h : ∀ name ∈ names, IsName name)
    (dir : String) :
    components (names.foldl join dir) = components dir ++ names.map .normal := by
  induction names generalizing dir with
  | nil => simp
  | cons name names ih =>
    have hrest := ih (fun n hn => h n (List.mem_cons_of_mem name hn)) (join dir name)
    rw [List.foldl_cons, hrest, components_join (h name List.mem_cons_self), List.append_assoc]
    rfl

theorem fileName?_foldl_join {names : List String} (h : ∀ name ∈ names, IsName name)
    {last : String} (hlast : names.getLast? = some last) (dir : String) :
    fileName? (names.foldl join dir) = some last := by
  rw [fileName?, components_foldl_join h, List.getLast?_append, List.getLast?_map, hlast]
  rfl

end Path

end Enclave
