import Mathlib.Data.List.Forall2

/-!
# Enclave.Proofs.Sequencing

Computations that may fail, taken apart. `Ends P E x` says of a computation both what holds of the
value it gives and what holds of the error it fails with, so that one pass over a loop shows what
the loop keeps and why it may stop.
-/

namespace Enclave

variable {ε δ α β σ : Type}

theorem bind_eq_ok {x : Except ε α} {f : α → Except ε β} {b : β} :
    (x >>= f) = .ok b ↔ ∃ a, x = .ok a ∧ f a = .ok b := by
  cases x with
  | error e => simp [bind, Except.bind]
  | ok a => simp [bind, Except.bind]

theorem bind_eq_error {x : Except ε α} {f : α → Except ε β} {e : ε} :
    (x >>= f) = .error e ↔ x = .error e ∨ ∃ a, x = .ok a ∧ f a = .error e := by
  cases x with
  | error e' => simp [bind, Except.bind]
  | ok a => simp [bind, Except.bind]

theorem ok_bind (a : α) (f : α → Except ε β) : ((.ok a : Except ε α) >>= f) = f a := rfl

/-- A check that is run on the value of a computation, and passes, shows that there is one. -/
theorem exists_ok_of_any {x : Except ε α} {c : α → Bool} (h : x.toOption.any c = true) :
    ∃ a, x = .ok a ∧ c a = true := by
  cases x with
  | error e => cases h
  | ok a => exact ⟨a, rfl, h⟩

/-- The computation gives a value with `P` or fails with an error with `E`. -/
def Ends (P : α → Prop) (E : ε → Prop) : Except ε α → Prop
  | .ok a => P a
  | .error e => E e

namespace Ends

variable {P Q : α → Prop} {E F : ε → Prop} {x : Except ε α}

theorem of_ok {a : α} (h : P a) : Ends P E (.ok a) := h

theorem mono (h : Ends P E x) (hP : ∀ a, P a → Q a) (hE : ∀ e, E e → F e) : Ends Q F x := by
  cases x with
  | ok a => exact hP a h
  | error e => exact hE e h

theorem and (h : Ends P E x) (h' : Ends Q F x) : Ends (fun a => P a ∧ Q a) F x := by
  cases x with
  | ok a => exact ⟨h, h'⟩
  | error e => exact h'

theorem bind {f : α → Except ε β} {R : β → Prop} (h : Ends P E x)
    (hf : ∀ a, P a → Ends R E (f a)) : Ends R E (x >>= f) := by
  cases x with
  | ok a => exact hf a h
  | error e => exact h

theorem mapError {g : ε → δ} {G : δ → Prop} (h : Ends P E x) (hg : ∀ e, E e → G (g e)) :
    Ends P G (x.mapError g) := by
  cases x with
  | ok a => exact h
  | error e => exact hg e h

/-- A loop keeps an invariant that may speak of the entries that are left. -/
theorem foldlM {f : σ → α → Except ε σ} {P : List α → σ → Prop}
    (hstep : ∀ a rest s, P (a :: rest) s → Ends (P rest) E (f s a)) :
    ∀ {as : List α} {s : σ}, P as s → Ends (P []) E (as.foldlM f s) := by
  intro as
  induction as with
  | nil => intro s h; exact of_ok h
  | cons a as ih =>
    intro s h
    rw [List.foldlM_cons]
    exact (hstep a as s h).bind fun s' hs' => ih hs'

/-- A loop keeps what each of its turns keeps. -/
theorem foldlM_of_mem {f : σ → α → Except ε σ} {I : σ → Prop} {as : List α}
    (hstep : ∀ a ∈ as, ∀ s, I s → Ends I E (f s a)) {s : σ} (h : I s) :
    Ends I E (as.foldlM f s) := by
  induction as generalizing s with
  | nil => exact of_ok h
  | cons a as ih =>
    rw [List.foldlM_cons]
    refine (hstep a List.mem_cons_self s h).bind fun s' hs' => ?_
    exact ih (fun a' ha' => hstep a' (List.mem_cons_of_mem a ha')) hs'

end Ends

/-- Two computations side by side: both give values that are related, or both the same error. -/
def Both (R : α → β → Prop) : Except ε α → Except ε β → Prop
  | .ok a, .ok b => R a b
  | .error e, .error e' => e = e'
  | _, _ => False

namespace Both

variable {R : α → β → Prop} {x : Except ε α} {y : Except ε β}

theorem bind {γ τ : Type} {S : γ → τ → Prop} {f : α → Except ε γ} {f' : β → Except ε τ}
    (h : Both R x y) (hf : ∀ a b, R a b → Both S (f a) (f' b)) : Both S (x >>= f) (y >>= f') := by
  cases x with
  | error e =>
    cases y with
    | error e' => exact h
    | ok b => cases h
  | ok a =>
    cases y with
    | error e' => cases h
    | ok b => exact hf a b h

theorem mapError {g : ε → δ} (h : Both R x y) : Both R (x.mapError g) (y.mapError g) := by
  cases x with
  | error e =>
    cases y with
    | error e' => exact congrArg g h
    | ok b => cases h
  | ok a =>
    cases y with
    | error e' => cases h
    | ok b => exact h

theorem foldlM {τ : Type} {S : σ → τ → Prop} {f : σ → α → Except ε σ} {f' : τ → α → Except ε τ}
    {as : List α} (hstep : ∀ a ∈ as, ∀ s t, S s t → Both S (f s a) (f' t a)) {s : σ} {t : τ}
    (h : S s t) : Both S (as.foldlM f s) (as.foldlM f' t) := by
  induction as generalizing s t with
  | nil => exact h
  | cons a as ih =>
    rw [List.foldlM_cons, List.foldlM_cons]
    refine (hstep a List.mem_cons_self s t h).bind fun s' t' h' => ?_
    exact ih (fun a' ha' => hstep a' (List.mem_cons_of_mem a ha')) h'

end Both

theorem forall₂_of_mapM {f : α → Except ε β} :
    ∀ {as : List α} {bs : List β}, as.mapM f = .ok bs →
      List.Forall₂ (fun a b => f a = .ok b) as bs := by
  intro as
  induction as with
  | nil =>
    intro bs h
    cases h
    exact .nil
  | cons a as ih =>
    intro bs h
    rw [List.mapM_cons] at h
    obtain ⟨b, hb, h⟩ := bind_eq_ok.1 h
    obtain ⟨bs₁, hbs₁, h⟩ := bind_eq_ok.1 h
    cases h
    exact .cons hb (ih hbs₁)

theorem exists_of_forall₂ {R : α → β → Prop} {as : List α} {bs : List β}
    (h : List.Forall₂ R as bs) {b : β} (hb : b ∈ bs) : ∃ a ∈ as, R a b := by
  induction h with
  | nil => cases hb
  | @cons a b' as bs hab _ ih =>
    rcases List.mem_cons.1 hb with rfl | hb
    · exact ⟨a, List.mem_cons_self, hab⟩
    · obtain ⟨a', ha', hr⟩ := ih hb
      exact ⟨a', List.mem_cons_of_mem a ha', hr⟩

/-- Every entry of a list that was mapped comes from an entry that was mapped to it. -/
theorem exists_of_mem_mapM {f : α → Except ε β} {as : List α} {bs : List β}
    (h : as.mapM f = .ok bs) : ∀ b ∈ bs, ∃ a ∈ as, f a = .ok b :=
  fun _ hb => exists_of_forall₂ (forall₂_of_mapM h) hb

theorem getElem?_of_mapM {f : α → Except ε β} :
    ∀ {as : List α} {bs : List β}, as.mapM f = .ok bs → bs.length = as.length ∧
      ∀ (i : Nat) (a : α), as[i]? = some a → ∃ b, bs[i]? = some b ∧ f a = .ok b := by
  intro as
  induction as with
  | nil =>
    intro bs h
    cases h
    exact ⟨rfl, fun i a ha => by cases ha⟩
  | cons a as ih =>
    intro bs h
    rw [List.mapM_cons] at h
    obtain ⟨b, hb, h⟩ := bind_eq_ok.1 h
    obtain ⟨bs₁, hbs₁, h⟩ := bind_eq_ok.1 h
    cases h
    obtain ⟨hlength, hget⟩ := ih hbs₁
    refine ⟨by rw [List.length_cons, List.length_cons, hlength], fun i a' ha' => ?_⟩
    cases i with
    | zero =>
      cases ha'
      exact ⟨b, rfl, hb⟩
    | succ i => exact hget i a' ha'

theorem exists_mem_of_mapM {f : α → Except ε β} {as : List α} {bs : List β}
    (h : as.mapM f = .ok bs) {a : α} (ha : a ∈ as) : ∃ b ∈ bs, f a = .ok b := by
  obtain ⟨i, hi⟩ := List.getElem?_of_mem ha
  obtain ⟨b, hb, hf⟩ := (getElem?_of_mapM h).2 i a hi
  exact ⟨b, List.mem_of_getElem? hb, hf⟩

theorem map_eq_of_mapM {γ : Type} {f : α → Except ε β} {p : β → γ} {q : α → γ}
    (hf : ∀ a b, f a = .ok b → p b = q a) {as : List α} {bs : List β} (h : as.mapM f = .ok bs) :
    bs.map p = as.map q := by
  rw [← List.forall₂_eq_eq_eq, List.forall₂_map_left_iff, List.forall₂_map_right_iff]
  exact ((forall₂_of_mapM h).imp hf).flip

theorem mapM_eq_ok_map {f : α → Except ε β} {g : α → β} {as : List α}
    (h : ∀ a ∈ as, f a = .ok (g a)) : as.mapM f = .ok (as.map g) := by
  induction as with
  | nil => rfl
  | cons a as ih =>
    have hrest := ih fun a' ha' => h a' (List.mem_cons_of_mem a ha')
    rw [List.mapM_cons, h a List.mem_cons_self, hrest]
    rfl

/-- Mapping fails as it does on some entry. -/
theorem exists_of_mapM_eq_error {f : α → Except ε β} {as : List α} {e : ε}
    (h : as.mapM f = .error e) : ∃ a ∈ as, f a = .error e := by
  induction as with
  | nil => cases h
  | cons a as ih =>
    rw [List.mapM_cons] at h
    rcases bind_eq_error.1 h with h | ⟨b, -, h⟩
    · exact ⟨a, List.mem_cons_self, h⟩
    · rcases bind_eq_error.1 h with h | ⟨bs, -, h⟩
      · obtain ⟨a', ha', hf⟩ := ih h
        exact ⟨a', List.mem_cons_of_mem a ha', hf⟩
      · cases h

theorem mapM_isOk_iff {f : α → Except ε β} {as : List α} :
    (∃ bs, as.mapM f = .ok bs) ↔ ∀ a ∈ as, ∃ b, f a = .ok b := by
  constructor
  · rintro ⟨bs, hbs⟩ a ha
    obtain ⟨b, -, hb⟩ := exists_mem_of_mapM hbs ha
    exact ⟨b, hb⟩
  · intro h
    induction as with
    | nil => exact ⟨[], rfl⟩
    | cons a as ih =>
      obtain ⟨b, hb⟩ := h a List.mem_cons_self
      obtain ⟨bs, hbs⟩ := ih fun a' ha' => h a' (List.mem_cons_of_mem a ha')
      refine ⟨b :: bs, ?_⟩
      rw [List.mapM_cons, hb, hbs]
      rfl

end Enclave
