import Enclave.Proofs.Depiction
import Mathlib.Data.List.Infix

/-!
# Enclave.Proofs.Sites

Calls at known places, and the nodes through which they go. The node for a place is found by a name
that is put together from the caller, the callee and the place. The parts can be read off that name
as long as callers do not contain `->` and callees do not contain `@`, whatever the file is called;
then whoever calls into such a node calls, at this place, what is called from it. Where names do
contain these marks, two calls can share a node, and the graph shows calls that nobody makes.

* `call_of_site`: with such names, a way through the node for a place is a call of the program.
* `call_invented_by_shared_site`: without them it need not be.
-/

namespace Enclave

theorem append_arrow_inj {r r' : List Char} : ∀ {a a' : List Char}, ¬ ['-', '>'] <:+: a →
    ¬ ['-', '>'] <:+: a' → a ++ '-' :: '>' :: r = a' ++ '-' :: '>' :: r' → a = a' ∧ r = r' := by
  -- an arrow cannot begin inside a text without one and end after it
  have hlate : ∀ {x : Char} {xs r r' : List Char}, ¬ ['-', '>'] <:+: x :: xs →
      '-' :: '>' :: r ≠ x :: xs ++ '-' :: '>' :: r' := by
    intro x xs r r' hno h
    rw [List.cons_append, List.cons.injEq] at h
    obtain ⟨rfl, h⟩ := h
    cases xs with
    | nil => simp at h
    | cons y ys =>
      rw [List.cons_append, List.cons.injEq] at h
      obtain ⟨rfl, -⟩ := h
      exact hno ⟨[], ys, rfl⟩
  intro a
  induction a with
  | nil =>
    intro a' _ hno' h
    cases a' with
    | nil => simpa using h
    | cons x xs => exact absurd h (hlate hno')
  | cons x xs ih =>
    intro a' hno hno' h
    cases a' with
    | nil => exact absurd h.symm (hlate hno)
    | cons y ys =>
      have htail : ∀ {z : Char} {zs : List Char}, ¬ ['-', '>'] <:+: z :: zs →
          ¬ ['-', '>'] <:+: zs := fun hno hin => hno (List.infix_cons hin)
      rw [List.cons_append, List.cons_append, List.cons.injEq] at h
      obtain ⟨rfl, h⟩ := h
      obtain ⟨rfl, rfl⟩ := ih (htail hno) (htail hno') h
      exact ⟨rfl, rfl⟩

theorem append_mark_inj {m : Char} {r r' : List Char} : ∀ {a a' : List Char}, m ∉ a → m ∉ a' →
    a ++ m :: r = a' ++ m :: r' → a = a' := by
  intro a
  induction a with
  | nil =>
    intro a' _ hno' h
    cases a' with
    | nil => rfl
    | cons x xs => simp_all
  | cons x xs ih =>
    intro a' hno hno' h
    cases a' with
    | nil => simp_all
    | cons y ys =>
      simp only [List.mem_cons, not_or] at hno hno'
      rw [List.cons_append, List.cons_append, List.cons.injEq] at h
      rw [h.1, ih hno.2 hno'.2 h.2]

namespace CallDecl

variable {c c' : CallDecl} {name : String}

/-- The names in the call do not contain what separates them in the name of its place. -/
def Plain (c : CallDecl) : Prop := ¬ ['-', '>'] <:+: c.caller.toList ∧ '@' ∉ c.callee.toList

instance (c : CallDecl) : Decidable c.Plain :=
  inferInstanceAs (Decidable (¬ ['-', '>'] <:+: c.caller.toList ∧ '@' ∉ c.callee.toList))

theorem At.toList (h : c.At name) : ∃ place : List Char,
    name.toList = c.caller.toList ++ '-' :: '>' :: (c.callee.toList ++ '@' :: place) := by
  obtain ⟨site, -, hname⟩ := h
  obtain ⟨place, -, hname⟩ := bind_eq_ok.1 hname
  refine ⟨place.toList, ?_⟩
  rw [← Except.ok.inj hname]
  simp [toString]

theorem At.arrow (h : c.At name) : ['-', '>'] <:+: name.toList := by
  obtain ⟨place, hname⟩ := h.toList
  exact ⟨c.caller.toList, c.callee.toList ++ '@' :: place, by simp [hname]⟩

theorem At.mark (h : c.At name) : '@' ∈ name.toList := by
  obtain ⟨place, hname⟩ := h.toList
  simp [hname]

theorem At.names_eq (h : c.At name) (h' : c'.At name) (hc : c.Plain) (hc' : c'.Plain) :
    c.caller = c'.caller ∧ c.callee = c'.callee := by
  obtain ⟨place, hname⟩ := h.toList
  obtain ⟨place', hname'⟩ := h'.toList
  obtain ⟨hcaller, hrest⟩ := append_arrow_inj hc.1 hc'.1 (hname.symm.trans hname')
  exact ⟨String.toList_inj.1 hcaller, String.toList_inj.1 (append_mark_inj hc.2 hc'.2 hrest)⟩

theorem Links.at_target {x : CallDecl} {a : String} (h : c.Links a name) (hc : c.Plain)
    (hx : x.At name) : c.caller = a ∧ c.At name := by
  have hcallee : c.callee ≠ name := by
    rintro rfl
    exact hc.2 hx.mark
  rcases h with ⟨-, -, heq⟩ | h | ⟨-, heq⟩
  · exact absurd heq hcallee
  · exact h
  · exact absurd heq hcallee

theorem Links.at_source {x : CallDecl} {b : String} (h : c.Links name b) (hc : c.Plain)
    (hx : x.At name) : c.callee = b ∧ c.At name := by
  have hcaller : c.caller ≠ name := by
    rintro rfl
    exact hc.1 hx.arrow
  rcases h with ⟨-, heq, -⟩ | ⟨heq, -⟩ | ⟨hat, hcallee⟩
  · exact absurd heq hcaller
  · exact absurd heq hcaller
  · exact ⟨hcallee, hat⟩

end CallDecl

namespace Graph

variable {g : Graph} {ir : IrFacts} {pdg : PdgFacts} {labels : Labels} {name a b : String}

theorem Reads.exists_links (hg : g.Reads (Clause.ofProgram ir pdg labels))
    (h : g.Carries a b .call) : ∃ c ∈ ir.calls, c.Links a b := by
  have := Clause.mem_ofProgram_edge.1 (hg.carries_iff.1 h)
  simpa using this

/-- Who calls into the node for a place calls, at this place, what is called from it. -/
theorem call_of_site (h : ofProgram ir pdg labels = .ok (.ok g))
    (hplain : ∀ c ∈ ir.calls, c.Plain) (hsite : g.HasKind name .callSite)
    (hin : g.Carries a name .call) (hout : g.Carries name b .call) :
    ∃ c ∈ ir.calls, c.caller = a ∧ c.callee = b ∧ c.At name := by
  have hg := reads_ofProgram h
  obtain ⟨x, -, hx⟩ := exists_at_of_hasKind hg hsite
  obtain ⟨c, hc, hlink⟩ := hg.exists_links hin
  obtain ⟨c', hc', hlink'⟩ := hg.exists_links hout
  obtain ⟨hcaller, hat⟩ := hlink.at_target (hplain c hc) hx
  obtain ⟨hcallee, hat'⟩ := hlink'.at_source (hplain c' hc') hx
  obtain ⟨-, hsame⟩ := hat.names_eq hat' (hplain c hc) (hplain c' hc')
  exact ⟨c, hc, hcaller, hsame.trans hcallee, hat⟩

/-- Calls on one line, in a file and to functions whose names contain what separates names. -/
def crowded : IrFacts where
  calls := [⟨"get", "operator->", some (.line "o@1.c" 7 none)⟩,
    ⟨"get", "operator-", some (.line "o@1.c" 7 (some 4))⟩,
    ⟨"set", "operator->", some (.line "o@1.c" 7 none)⟩]

theorem call_of_site_crowded : ∃ g, ofProgram crowded {} {} = .ok (.ok g) ∧
    (∀ c ∈ crowded.calls, c.Plain) ∧ g.HasKind "get->operator->@o@1.c:7" .callSite ∧
    g.Carries "get" "get->operator->@o@1.c:7" .call ∧
    g.Carries "get->operator->@o@1.c:7" "operator->" .call ∧
    ∃ c ∈ crowded.calls, c.caller = "get" ∧ c.callee = "operator->" ∧
      c.At "get->operator->@o@1.c:7" := by
  have hrun : (ofProgram crowded {} {}).toOption.any (fun r => r.toOption.any fun g =>
      decide (g.HasKind "get->operator->@o@1.c:7" .callSite ∧
        g.Carries "get" "get->operator->@o@1.c:7" .call ∧
        g.Carries "get->operator->@o@1.c:7" "operator->" .call)) = true := by
    decide +kernel
  have hplain : ∀ c ∈ crowded.calls, c.Plain := by decide +kernel
  obtain ⟨r, hok, hr⟩ := exists_ok_of_any hrun
  obtain ⟨g, rfl, hcheck⟩ := exists_ok_of_any hr
  obtain ⟨hsite, hin, hout⟩ := of_decide_eq_true hcheck
  exact ⟨g, hok, hplain, hsite, hin, hout, call_of_site hok hplain hsite hin hout⟩

/-- Two calls at one place whose names, put together, read the same. -/
def ambiguous : IrFacts where
  calls := [⟨"p", "q->r", some (.line "o.c" 1 none)⟩, ⟨"p->q", "r", some (.line "o.c" 1 none)⟩]

theorem call_invented_by_shared_site : ∃ g, ofProgram ambiguous {} {} = .ok (.ok g) ∧
    g.HasKind "p->q->r@o.c:1" .callSite ∧ g.Carries "p" "p->q->r@o.c:1" .call ∧
    g.Carries "p->q->r@o.c:1" "r" .call ∧
    ¬ ∃ c ∈ ambiguous.calls, c.caller = "p" ∧ c.callee = "r" := by
  have hrun : (ofProgram ambiguous {} {}).toOption.any (fun r => r.toOption.any fun g =>
      decide (g.HasKind "p->q->r@o.c:1" .callSite ∧ g.Carries "p" "p->q->r@o.c:1" .call ∧
        g.Carries "p->q->r@o.c:1" "r" .call)) = true := by
    decide +kernel
  obtain ⟨r, hok, hr⟩ := exists_ok_of_any hrun
  obtain ⟨g, rfl, hcheck⟩ := exists_ok_of_any hr
  obtain ⟨hsite, hin, hout⟩ := of_decide_eq_true hcheck
  exact ⟨g, hok, hsite, hin, hout, by decide⟩

end Graph

end Enclave
