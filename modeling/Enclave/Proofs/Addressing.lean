import Enclave.Channel.Endpoint
import Enclave.Proofs.Spelling
import Mathlib.Data.List.DropRight

/-!
# Enclave.Proofs.Addressing

Endpoints as text. Reading takes any number of brackets off a host, writing puts one pair around a
host that holds a colon; what is left of a host once its brackets are off (`Bare`) is not changed by
either.

* `read_render`: an endpoint that was read from any text is read again from its own, and these are
  the endpoints whose host is bare and not empty.
-/

namespace Enclave

namespace Endpoint

/-- A host without a bracket that reading would take off. -/
structure Bare (host : List Char) : Prop where
  opening : host.head? ≠ some '['
  closing : host.getLast? ≠ some ']'

variable {host before after : List Char} {s : String} {e : Endpoint}

theorem splitLastColon_append (h : ':' ∉ after) :
    splitLastColon (before ++ ':' :: after) = some (before, after) := by
  have hall : ∀ c ∈ after.reverse, (c != ':') = true := by
    intro c hc
    rw [bne_iff_ne]
    rintro rfl
    exact h (List.mem_reverse.1 hc)
  have hreverse : (before ++ ':' :: after).reverse = after.reverse ++ ':' :: before.reverse := by
    simp
  rw [splitLastColon, hreverse, List.takeWhile_append_of_pos hall,
    List.dropWhile_append_of_pos hall]
  simp

theorem dropWhile_eq_of_head? {p : Char → Bool} {skipped rest : List Char}
    (hskipped : ∀ c ∈ skipped, p c = true) (hrest : ∀ c, rest.head? = some c → p c = false) :
    (skipped ++ rest).dropWhile p = rest := by
  rw [List.dropWhile_append_of_pos hskipped]
  cases rest with
  | nil => rfl
  | cons c cs => simp [hrest c rfl]

theorem bare_bareHost (cs : List Char) : Bare (bareHost cs) := by
  have hbare : bareHost cs = (cs.dropWhile (· == '[')).rdropWhile (· == ']') := rfl
  constructor
  · intro hhead
    -- the first character is that of the text whose opening brackets are off
    obtain ⟨closing, hclosing⟩ := List.rdropWhile_prefix (· == ']') (cs.dropWhile (· == '['))
    have hnot := List.head?_dropWhile_not (· == '[') cs
    rw [← hclosing, ← hbare, List.head?_append, hhead] at hnot
    simp at hnot
  · intro hlast
    have hne : bareHost cs ≠ [] := by
      intro hnil
      rw [hnil] at hlast
      cases hlast
    rw [List.getLast?_eq_getLast_of_ne_nil hne] at hlast
    have hnot := List.rdropWhile_last_not (· == ']') (cs.dropWhile (· == '[')) hne
    exact hnot (beq_iff_eq.2 (Option.some.inj hlast))

theorem bareHost_bracketed (h : Bare host) (hne : host ≠ []) (m n : Nat) :
    bareHost (List.replicate m '[' ++ host ++ List.replicate n ']') = host := by
  have hopening : (List.replicate m '[' ++ (host ++ List.replicate n ']')).dropWhile (· == '[') =
      host ++ List.replicate n ']' := by
    refine dropWhile_eq_of_head? (fun c hc => by simp [List.eq_of_mem_replicate hc]) ?_
    intro c hc
    rw [List.head?_append_of_ne_nil _ hne] at hc
    rw [beq_eq_false_iff_ne]
    rintro rfl
    exact h.opening hc
  have hclosing : (List.replicate n ']' ++ host.reverse).dropWhile (· == ']') = host.reverse := by
    refine dropWhile_eq_of_head? (fun c hc => by simp [List.eq_of_mem_replicate hc]) ?_
    intro c hc
    rw [List.head?_reverse] at hc
    rw [beq_eq_false_iff_ne]
    rintro rfl
    exact h.closing hc
  rw [bareHost, List.append_assoc, hopening, List.reverse_append, List.reverse_replicate, hclosing,
    List.reverse_reverse]

theorem readPort_toDigits (port : UInt16) : readPort (Nat.toDigits 10 port.toNat) = some port := by
  have hplus := fun ds => Json.toDigits_append_ne (n := port.toNat) (c := '+') rfl [] ds
  have hall : (Nat.toDigits 10 port.toNat).all Char.isDigit = true :=
    List.all_eq_true.2 fun c hc => Json.isDigit_of_mem hc
  have hvalue := Json.natOfDigits_toDigits port.toNat
  rw [Json.natOfDigits] at hvalue
  rw [List.append_nil] at hplus
  unfold readPort
  split
  · rename_i ds hds
    exact absurd hds (hplus ds)
  · simp only
    rw [hall, hvalue, if_neg (by simp), if_pos port.toNat_lt, UInt16.ofNat_toNat]

/-- The number of brackets on either side of a host when it is written. -/
def brackets (e : Endpoint) : Nat := if e.host.toList.contains ':' then 1 else 0

theorem toList_render (e : Endpoint) : e.render.toList =
    scheme ++ (List.replicate e.brackets '[' ++ e.host.toList ++ List.replicate e.brackets ']' ++
      ':' :: Nat.toDigits 10 e.port.toNat) := by
  have hport : (toString e.port).toList = Nat.toDigits 10 e.port.toNat := by
    show (String.ofList _).toList = _
    rw [String.toList_ofList]
  have htext : ∀ t : String, toString t = t := fun _ => rfl
  rw [render, brackets]
  delta scheme
  split
  · simp [hport, htext]
  · simp [hport, htext]

theorem read?_eq (hs : s.toList = scheme ++ (before ++ ':' :: after)) (hafter : ':' ∉ after) :
    read? s = if (bareHost before).isEmpty then none
      else (readPort after).map fun port => ⟨String.ofList (bareHost before), port⟩ := by
  have hscheme : scheme.isPrefixOf s.toList = true := by
    rw [hs, List.isPrefixOf_iff_prefix]
    exact List.prefix_append _ _
  have hrest : s.toList.drop scheme.length = before ++ ':' :: after := by
    rw [hs, List.drop_left]
  rw [read?, if_pos hscheme, hrest]
  simp only [Option.bind_eq_bind, Option.bind_some, splitLastColon_append hafter]
  split
  · rfl
  · cases readPort after <;> rfl

theorem read?_render (h : Bare e.host.toList) (hne : e.host.toList ≠ []) :
    read? e.render = some e := by
  have hcolon : ':' ∉ Nat.toDigits 10 e.port.toNat := by
    intro hmem
    cases Json.isDigit_of_mem hmem
  rw [read?_eq (toList_render e) hcolon, bareHost_bracketed h hne, if_neg (by simpa using hne),
    readPort_toDigits, Option.map_some, String.ofList_toList]

/-- Whatever text it comes from, the host of an endpoint is bare and not empty. -/
theorem bare_of_read? (h : read? s = some e) : Bare e.host.toList ∧ e.host.toList ≠ [] := by
  simp only [read?, Option.bind_eq_bind] at h
  split at h
  · obtain ⟨rest, -, h⟩ := Option.bind_eq_some_iff.1 h
    obtain ⟨⟨before, after⟩, -, h⟩ := Option.bind_eq_some_iff.1 h
    split at h
    · cases h
    · rename_i hne
      obtain ⟨port, -, h⟩ := Option.bind_eq_some_iff.1 h
      cases h
      rw [String.toList_ofList]
      exact ⟨bare_bareHost before, by simpa using hne⟩
  · cases h

theorem read_eq_ok_iff : read s = .ok e ↔ read? s = some e := by
  rw [read]
  cases read? s <;> simp

/--
An endpoint that any text stands for is read again, host and port alike, from the text that it is
written as. The endpoints that are read back from their own texts are those whose host is not empty
and neither begins with an opening nor ends with a closing bracket.
-/
theorem read_render : (∀ (s : String) (e : Endpoint), read s = .ok e → read e.render = .ok e) ∧
    ∀ e : Endpoint, read e.render = .ok e ↔ Bare e.host.toList ∧ e.host.toList ≠ [] := by
  have hrender : ∀ e : Endpoint, read e.render = .ok e ↔
      Bare e.host.toList ∧ e.host.toList ≠ [] := by
    intro e
    rw [read_eq_ok_iff]
    exact ⟨bare_of_read?, fun h => read?_render h.1 h.2⟩
  exact ⟨fun s e h => (hrender e).2 (bare_of_read? (read_eq_ok_iff.1 h)), hrender⟩

/-- Brackets of both kinds inside a host with colons, more of them around it, and a padded port. -/
theorem read_render_bracketed : read "tcp://[[a]:[b]]:+0080" = .ok ⟨"a]:[b", 80⟩ ∧
    (⟨"a]:[b", 80⟩ : Endpoint).render = "tcp://[a]:[b]:80" ∧
    read (⟨"a]:[b", 80⟩ : Endpoint).render = .ok ⟨"a]:[b", 80⟩ := by
  have hread : read "tcp://[[a]:[b]]:+0080" = .ok ⟨"a]:[b", 80⟩ := by decide +kernel
  exact ⟨hread, by decide +kernel, read_render.1 _ _ hread⟩

end Endpoint

end Enclave
