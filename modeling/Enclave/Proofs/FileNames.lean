import Enclave.Files.Walk
import Enclave.Proofs.Collections
import Mathlib.Data.List.Basic

/-!
# Enclave.Proofs.FileNames

Names of files as text. A name is text if its bytes encode characters, and then they encode only
these. The encoding keeps the order: of two characters the smaller has the smaller bytes, whatever
follows them, so names are in the order of their bytes as they are in the order of their texts
(`compare_ofText`).
-/

namespace Enclave

open Std

theorem compare_append_left {α : Type} [Ord α] [ReflOrd α] (l xs ys : List α) :
    compare (l ++ xs) (l ++ ys) = compare xs ys := by
  induction l with
  | nil => rfl
  | cons a l ih =>
    rw [List.cons_append, List.cons_append, List.compare_cons_cons, ReflOrd.compare_self,
      Ordering.eq_then, ih]

namespace FileName

instance : TransOrd FileName := inferInstanceAs (TransCmp (compareOn bytes))

instance : LawfulEqOrd FileName where
  eq_of_compare {a b} h := by
    cases a
    cases b
    exact congrArg mk (LawfulEqOrd.eq_of_compare h)

theorem text?_eq_some_iff {n : FileName} {s : String} : n.text? = some s ↔ n = ofText s := by
  unfold text? String.fromUTF8? ofText
  constructor
  · intro h
    split at h
    · cases h
      rfl
    · cases h
  · rintro rfl
    rw [Array.toArray_toList, String.toUTF8_eq_toByteArray, dif_pos s.isValidUTF8]
    rfl

section Encoding

variable {m n : Nat} {xs ys : List UInt8}

theorem compare_ofNat_cons (h : m < n) (hn : n < 256) :
    compare (UInt8.ofNat m :: xs) (UInt8.ofNat n :: ys) = .lt := by
  have hlt : UInt8.ofNat m < UInt8.ofNat n := by
    rw [UInt8.lt_iff_toNat_lt, UInt8.toNat_ofNat', UInt8.toNat_ofNat']
    omega
  rw [List.compare_cons_cons, compare_eq_lt.2 hlt, Ordering.lt_then]

theorem compare_ofNat_cons_of_le (h : m ≤ n) (hn : n < 256)
    (hrest : m = n → compare xs ys = .lt) :
    compare (UInt8.ofNat m :: xs) (UInt8.ofNat n :: ys) = .lt := by
  rcases Nat.lt_or_eq_of_le h with hlt | rfl
  · exact compare_ofNat_cons hlt hn
  · rw [List.compare_cons_cons, ReflOrd.compare_self, Ordering.eq_then, hrest rfl]

/-- The smaller of two characters has the smaller bytes, and neither begins the other. -/
theorem compare_utf8EncodeChar {c d : Char} (h : c < d) (xs ys : List UInt8) :
    compare (String.utf8EncodeChar c ++ xs) (String.utf8EncodeChar d ++ ys) = .lt := by
  have hlt : c.val.toNat < d.val.toNat := h
  have hmax : d.val.toNat < 1114112 := by
    rcases d.valid with hvalid | ⟨-, hvalid⟩
    · exact Nat.lt_trans hvalid (by decide)
    · exact hvalid
  rw [String.utf8EncodeChar.eq_1 c, String.utf8EncodeChar.eq_1 d]
  generalize c.val.toNat = v at hlt
  generalize d.val.toNat = w at hlt hmax
  -- where the numbers of bytes differ the first byte decides, and else the first digit that differs
  split_ifs <;> try omega
  · exact compare_ofNat_cons (by omega) (by omega)
  · exact compare_ofNat_cons (by omega) (by omega)
  · exact compare_ofNat_cons (by omega) (by omega)
  · exact compare_ofNat_cons (by omega) (by omega)
  · exact compare_ofNat_cons_of_le (by omega) (by omega) fun _ =>
      compare_ofNat_cons (by omega) (by omega)
  · exact compare_ofNat_cons (by omega) (by omega)
  · exact compare_ofNat_cons (by omega) (by omega)
  · exact compare_ofNat_cons_of_le (by omega) (by omega) fun _ =>
      compare_ofNat_cons_of_le (by omega) (by omega) fun _ =>
      compare_ofNat_cons (by omega) (by omega)
  · exact compare_ofNat_cons (by omega) (by omega)
  · exact compare_ofNat_cons_of_le (by omega) (by omega) fun _ =>
      compare_ofNat_cons_of_le (by omega) (by omega) fun _ =>
      compare_ofNat_cons_of_le (by omega) (by omega) fun _ =>
      compare_ofNat_cons (by omega) (by omega)

end Encoding

theorem bytes_ofText (s : String) :
    (ofText s).bytes = s.toList.flatMap String.utf8EncodeChar := by
  have hbytes : s.toByteArray = s.toList.utf8Encode := by
    rw [← String.toByteArray_ofList, String.ofList_toList]
  rw [ofText, String.toUTF8_eq_toByteArray, hbytes]
  exact List.toList_data_toByteArray

theorem compare_encoded_of_lt {cs ds : List Char} (h : cs < ds) :
    compare (cs.flatMap String.utf8EncodeChar) (ds.flatMap String.utf8EncodeChar) = .lt := by
  induction cs generalizing ds with
  | nil =>
    cases ds with
    | nil => cases h
    | cons d ds =>
      rw [List.flatMap_cons]
      cases hd : String.utf8EncodeChar d with
      | nil => exact absurd hd String.utf8EncodeChar_ne_nil
      | cons b bs => rfl
  | cons c cs ih =>
    cases ds with
    | nil => cases h
    | cons d ds =>
      rw [List.flatMap_cons, List.flatMap_cons]
      rcases List.cons_lt_cons_iff.1 h with hlt | ⟨rfl, hrest⟩
      · exact compare_utf8EncodeChar hlt _ _
      · rw [compare_append_left]
        exact ih hrest

theorem compare_ofText (a b : String) : compare (ofText a) (ofText b) = compare a b := by
  have hlt : ∀ {a b : String}, compare a b = .lt → compare (ofText a) (ofText b) = .lt := by
    intro a b h
    change compare (ofText a).bytes (ofText b).bytes = .lt
    rw [bytes_ofText, bytes_ofText]
    exact compare_encoded_of_lt (String.lt_iff.1 (compareOfLessAndEq_eq_lt.1 h))
  cases h : compare a b with
  | lt => exact hlt h
  | eq => rw [LawfulEqOrd.eq_of_compare h, ReflOrd.compare_self]
  | gt => exact OrientedCmp.gt_of_lt (hlt (OrientedCmp.lt_of_gt h))

end FileName

end Enclave
