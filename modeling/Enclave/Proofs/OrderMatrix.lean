import Enclave.Proofs.Order
import Mathlib.Data.List.FinRange
import Mathlib.Data.List.Induction

/-!
# Enclave.Proofs.OrderMatrix

The order of levels as a matrix that is closed in place. A matrix holds one truth value for each two
levels, row after row in one array. Closing it goes through all pivots; for each of them every row
that has the pivot takes over what the row of the pivot has, while that row may be the one that is
being changed. Names stand in one ascending array and are found by halving it.

* `holds_close_iff`: after the last pivot the matrix holds of two levels exactly if marked pairs
  lead from one to the other. The invariant over the pivots is `Through`: a way all of whose inner
  levels are pivots that have been passed.
* `find?_eq_some_iff`: halving finds a name at its place and nowhere else.
* `assemble_of_ordered`: names and matrix are those of the lattice with the declared order, and give
  the same cycle if there is one.
-/

namespace Enclave

/-- A relation on the numbers below `n`: one truth value for each two, row after row. -/
structure OrderMatrix (n : Nat) where
  cells : Vector Bool (n * n)

namespace OrderMatrix

variable {n : Nat}

def cell (a b : Fin n) : Fin (n * n) :=
  ⟨a * n + b, calc
    a * n + b < a * n + n := Nat.add_lt_add_left b.isLt _
    _ = (a + 1) * n := (Nat.succ_mul _ _).symm
    _ ≤ n * n := Nat.mul_le_mul_right n a.isLt⟩

def holds (m : OrderMatrix n) (a b : Fin n) : Bool := m.cells[cell a b]

def mark (m : OrderMatrix n) (a b : Fin n) : OrderMatrix n :=
  ⟨m.cells.set (cell a b) true (cell a b).isLt⟩

/-- Every level is below itself, and nothing else is known. -/
def diagonal (n : Nat) : OrderMatrix n :=
  (List.finRange n).foldl (fun m a => m.mark a a) ⟨Vector.replicate (n * n) false⟩

/-- The row of `a` takes over what the row of the pivot has. -/
def takeOver (pivot a : Fin n) (m : OrderMatrix n) : OrderMatrix n :=
  (List.finRange n).foldl (fun m b => if m.holds pivot b then m.mark a b else m) m

/-- Every row that has the pivot takes over its row. -/
def pass (m : OrderMatrix n) (pivot : Fin n) : OrderMatrix n :=
  (List.finRange n).foldl (fun m a => if m.holds a pivot then m.takeOver pivot a else m) m

def close (m : OrderMatrix n) : OrderMatrix n := (List.finRange n).foldl pass m

/-- The first two distinct levels that are below each other. -/
def cycle? (m : OrderMatrix n) : Option (Fin n × Fin n) :=
  (List.finRange n).findSome? fun a =>
    ((List.finRange n).find? fun b => decide (a < b) && m.holds a b && m.holds b a).map (a, ·)

section Cells

variable {m : OrderMatrix n} {a b c d : Fin n}

theorem cell_inj : cell a b = cell c d ↔ a = c ∧ b = d := by
  constructor
  · intro h
    have hval : (a * n + b : Nat) = c * n + d := congrArg Fin.val h
    have hn : 0 < n := Nat.zero_lt_of_lt a.isLt
    have hrow : (a : Nat) = c := by
      have hdiv := congrArg (· / n) hval
      simpa [Nat.mul_comm, Nat.mul_add_div hn, Nat.div_eq_of_lt] using hdiv
    exact ⟨Fin.ext hrow, Fin.ext (by rw [hrow] at hval; omega)⟩
  · rintro ⟨rfl, rfl⟩
    rfl

theorem holds_mark : (m.mark a b).holds c d = true ↔ m.holds c d = true ∨ a = c ∧ b = d := by
  rw [holds, mark, Fin.getElem_fin, Vector.getElem_set, ← cell_inj, Fin.ext_iff]
  split
  · simp [*]
  · simp [*, holds]

end Cells

section Closing

variable {m : OrderMatrix n} {pivot a c d : Fin n}

theorem holds_diagonal : (diagonal n).holds c d = true ↔ c = d := by
  have hrun : ∀ (as : List (Fin n)) (m : OrderMatrix n),
      (as.foldl (fun m a => m.mark a a) m).holds c d = true ↔
        m.holds c d = true ∨ c ∈ as ∧ c = d := by
    intro as
    induction as with
    | nil => simp
    | cons a as ih =>
      intro m
      rw [List.foldl_cons, ih, holds_mark, List.mem_cons]
      grind
  rw [diagonal, hrun]
  simp [holds]

/--
What taking over does to the matrix. The row of the pivot is read while the row of `a` changes; it
is the same throughout, for if the two rows are one, only what it has already is marked in it.
-/
theorem holds_takeOver : (m.takeOver pivot a).holds c d = true ↔
    m.holds c d = true ∨ a = c ∧ m.holds pivot d = true := by
  have hrun : ∀ (bs : List (Fin n)) (m : OrderMatrix n),
      (bs.foldl (fun m b => if m.holds pivot b then m.mark a b else m) m).holds c d = true ↔
        m.holds c d = true ∨ a = c ∧ d ∈ bs ∧ m.holds pivot d = true := by
    intro bs
    induction bs with
    | nil => simp
    | cons b bs ih =>
      intro m
      have hstep : ∀ e, (if m.holds pivot b then m.mark a b else m).holds e d = true ↔
          m.holds e d = true ∨ a = e ∧ b = d ∧ m.holds pivot d = true := by
        intro e
        split
        · rw [holds_mark]
          grind
        · grind
      rw [List.foldl_cons, ih, hstep, hstep, List.mem_cons]
      grind
  rw [takeOver, hrun]
  simp

/-- Passing a pivot adds the ways through it; its own row and column stay as they are. -/
theorem holds_pass : (m.pass pivot).holds c d = true ↔
    m.holds c d = true ∨ m.holds c pivot = true ∧ m.holds pivot d = true := by
  have hrun : ∀ (as : List (Fin n)) (m : OrderMatrix n),
      (as.foldl (fun m a => if m.holds a pivot then m.takeOver pivot a else m) m).holds c d = true ↔
        m.holds c d = true ∨ c ∈ as ∧ m.holds c pivot = true ∧ m.holds pivot d = true := by
    intro as
    induction as with
    | nil => simp
    | cons a as ih =>
      intro m
      have hstep : ∀ e f, (if m.holds a pivot then m.takeOver pivot a else m).holds e f = true ↔
          m.holds e f = true ∨ a = e ∧ m.holds e pivot = true ∧ m.holds pivot f = true := by
        intro e f
        split
        · rw [holds_takeOver]
          grind
        · grind
      rw [List.foldl_cons, ih, hstep, hstep, hstep, List.mem_cons]
      grind
  rw [pass, hrun]
  simp

/-- A way by `R` whose inner points are all among the pivots. -/
inductive Through (R : Fin n → Fin n → Prop) (pivots : List (Fin n)) : Fin n → Fin n → Prop
  | step {a b} : R a b → Through R pivots a b
  | via {a b c} : b ∈ pivots → Through R pivots a b → Through R pivots b c → Through R pivots a c

namespace Through

variable {R : Fin n → Fin n → Prop} {pivots : List (Fin n)}

theorem mono {more : List (Fin n)} (hsub : ∀ p ∈ pivots, p ∈ more) (h : Through R pivots a c) :
    Through R more a c := by
  induction h with
  | step h => exact .step h
  | via hb _ _ ih₁ ih₂ => exact .via (hsub _ hb) ih₁ ih₂

theorem concat_iff : Through R (pivots ++ [pivot]) a c ↔
    Through R pivots a c ∨ Through R pivots a pivot ∧ Through R pivots pivot c := by
  have hsub : ∀ p ∈ pivots, p ∈ pivots ++ [pivot] := fun p hp => List.mem_append_left _ hp
  constructor
  · intro h
    induction h with
    | step h => exact .inl (.step h)
    | via hb _ _ ih₁ ih₂ =>
      rcases List.mem_append.1 hb with hb | hb
      · rcases ih₁ with h₁ | ⟨h₁, h₁'⟩ <;> rcases ih₂ with h₂ | ⟨h₂, h₂'⟩
        · exact .inl (.via hb h₁ h₂)
        · exact .inr ⟨.via hb h₁ h₂, h₂'⟩
        · exact .inr ⟨h₁, .via hb h₁' h₂⟩
        · exact .inr ⟨h₁, h₂'⟩
      · cases List.mem_singleton.1 hb
        exact .inr ⟨ih₁.elim id And.left, ih₂.elim id And.right⟩
  · rintro (h | ⟨h₁, h₂⟩)
    · exact h.mono hsub
    · exact .via (List.mem_append_right _ (List.mem_singleton.2 rfl)) (h₁.mono hsub) (h₂.mono hsub)

theorem finRange_iff : Through R (List.finRange n) a c ↔ Relation.TransGen R a c := by
  constructor
  · intro h
    induction h with
    | step h => exact .single h
    | via _ _ _ ih₁ ih₂ => exact ih₁.trans ih₂
  · intro h
    induction h with
    | single h => exact .step h
    | tail _ h ih => exact .via (List.mem_finRange _) ih (.step h)

end Through

/-- After some pivots the matrix holds the ways through them. -/
theorem holds_foldl_pass (pivots : List (Fin n)) : (pivots.foldl pass m).holds c d = true ↔
    Through (fun a b => m.holds a b = true) pivots c d := by
  induction pivots using List.reverseRecOn generalizing c d with
  | nil =>
    constructor
    · intro h
      exact .step h
    · intro h
      cases h with
      | step h => exact h
      | via hb _ _ => cases hb
  | append_singleton pivots pivot ih =>
    rw [List.foldl_append, List.foldl_cons, List.foldl_nil, holds_pass, ih, ih, ih,
      Through.concat_iff]

theorem holds_close_iff : m.close.holds c d = true ↔
    Relation.TransGen (fun a b => m.holds a b = true) c d := by
  rw [close, holds_foldl_pass, Through.finRange_iff]

end Closing

end OrderMatrix

/-- Names in ascending order, and a matrix that says which of them are below which. -/
structure OrderTable where
  names : Array String
  order : OrderMatrix names.size

namespace OrderTable

section Definitions

variable (names : Array String)

theorem middle_lt {lo hi : Nat} (h : hi ≤ names.size) (hlt : lo < hi) :
    lo + (hi - lo) / 2 < names.size := by
  omega

theorem middle_le {lo hi : Nat} (h : hi ≤ names.size) (hlt : lo < hi) :
    lo + (hi - lo) / 2 ≤ names.size :=
  Nat.le_of_lt (middle_lt names h hlt)

/-- Looks for a name from one place up to another by halving. -/
def findWithin (x : String) (lo hi : Nat) (h : hi ≤ names.size) : Option (Fin names.size) :=
  if hlt : lo < hi then
    have hmid := middle_lt names h hlt
    match compare names[lo + (hi - lo) / 2] x with
    | .lt => findWithin x (lo + (hi - lo) / 2 + 1) hi h
    | .eq => some ⟨_, hmid⟩
    | .gt => findWithin x lo (lo + (hi - lo) / 2) (middle_le names h hlt)
  else none
termination_by hi - lo

def find? (x : String) : Option (Fin names.size) := findWithin names x 0 names.size (Nat.le_refl _)

def lookup (x : String) : Except LatticeError (Fin names.size) :=
  match find? names x with
  | some a => .ok a
  | none => .error (.unknownLevel x)

def declare (m : OrderMatrix names.size) (p : String × String) :
    Except LatticeError (OrderMatrix names.size) := do
  let lo ← lookup names p.1
  let hi ← lookup names p.2
  return m.mark lo hi

/-- The closed order of names by declared pairs. -/
def closed (pairs : List (String × String)) : Except LatticeError (OrderMatrix names.size) := do
  return (← pairs.foldlM (declare names) (.diagonal names.size)).close

/-- The names with their closed order, unless it is cyclic. -/
def ofPairs (pairs : List (String × String)) : Except LatticeError OrderTable := do
  let order ← closed names pairs
  match order.cycle? with
  | some (a, b) => throw (.cyclicOrder names[a] names[b])
  | none => return ⟨names, order⟩

end Definitions

/-- The given and the declared names with the declared order. -/
def assemble (names : List String) (spec : LatticeSpec) : Except LatticeError OrderTable :=
  let found := (SortedSet.ofList (names ++ spec.levels)).toList.toArray
  if found.size > maxLevels then .error (.tooManyLevels found.size) else ofPairs found spec.order

section Halving

variable {names : Array String} {x : String}

theorem getElem_of_findWithin {lo hi : Nat} {h : hi ≤ names.size} {a : Fin names.size}
    (hfind : findWithin names x lo hi h = some a) : names[a] = x := by
  fun_induction findWithin names x lo hi h with
  | case1 lo hi h hlt hmid hcmp ih => exact ih hfind
  | case2 lo hi h hlt hmid hcmp =>
    cases hfind
    exact Std.LawfulEqOrd.eq_of_compare hcmp
  | case3 lo hi h hlt hmid hcmp ih => exact ih hfind
  | case4 lo hi h hlt => cases hfind

theorem lt_of_compare (hsorted : names.toList.Pairwise (· < ·)) {a b : Nat} (ha : a < names.size)
    (hb : b < names.size) (h : compare names[a] names[b] = .lt) : a < b := by
  have hlt : names[a] < names[b] := compareOfLessAndEq_eq_lt.1 h
  refine Nat.lt_of_not_le fun hle => ?_
  rcases Nat.lt_or_eq_of_le hle with hba | rfl
  · exact String.lt_asymm hlt (List.pairwise_iff_getElem.1 hsorted b a hb ha hba)
  · exact String.lt_irrefl _ hlt

theorem exists_findWithin (hsorted : names.toList.Pairwise (· < ·)) {lo hi : Nat}
    {h : hi ≤ names.size} {a : Fin names.size} (hlo : lo ≤ a) (hhi : a < hi) :
    ∃ b, findWithin names names[a] lo hi h = some b := by
  fun_induction findWithin names names[a] lo hi h with
  | case1 lo hi h hlt hmid hcmp ih => exact ih (lt_of_compare hsorted hmid a.isLt hcmp) hhi
  | case2 lo hi h hlt hmid hcmp => exact ⟨_, rfl⟩
  | case3 lo hi h hlt hmid hcmp ih =>
    exact ih hlo (lt_of_compare hsorted a.isLt hmid (Std.OrientedCmp.gt_iff_lt.1 hcmp))
  | case4 lo hi h hlt => omega

theorem find?_eq_some_iff (hsorted : names.toList.Pairwise (· < ·)) {a : Fin names.size} :
    find? names x = some a ↔ names[a] = x := by
  constructor
  · exact getElem_of_findWithin
  · rintro rfl
    obtain ⟨b, hb⟩ := exists_findWithin hsorted (Nat.zero_le a) a.isLt
    have hsame : names[b] = names[a] := getElem_of_findWithin hb
    have hba : b = a := Fin.ext ((List.getElem_inj (hsorted.imp String.ne_of_lt)).1 hsame)
    rw [find?, hb, hba]

end Halving

open OrderMatrix

/-- A table has the names, the places and the order of a lattice. -/
structure Mirrors (t : OrderTable) (l : Lattice) : Prop where
  names : t.names.toList = l.names
  lookup : ∀ x, (OrderTable.lookup t.names x).map Fin.val = l.lookup x
  order : ∀ a b : Fin t.names.size, t.order.holds a b = l.dominatedBy a b

variable {l : Lattice} {names : List String} {spec : LatticeSpec}

theorem lookup_eq (hsorted : l.names.Pairwise (· < ·)) (x : String) :
    (lookup l.names.toArray x).map Fin.val = l.lookup x := by
  have hfind : (find? l.names.toArray x).map Fin.val = l.lookup? x := by
    ext a
    rw [Lattice.lookup?_eq_some_iff (hsorted.imp String.ne_of_lt), Option.map_eq_some_iff,
      List.getElem?_eq_some_iff]
    constructor
    · rintro ⟨b, hb, rfl⟩
      exact ⟨b.isLt, (find?_eq_some_iff hsorted).1 hb⟩
    · rintro ⟨ha, hname⟩
      exact ⟨⟨a, ha⟩, (find?_eq_some_iff hsorted).2 hname, rfl⟩
  rw [lookup, Lattice.lookup, ← hfind]
  cases find? l.names.toArray x <;> rfl

/-- Declaring pairs marks the levels that they become, or fails where one is not found. -/
theorem both_declare (hsorted : l.names.Pairwise (· < ·)) (pairs : List (String × String))
    (m : OrderMatrix l.names.toArray.size) :
    Both (fun order m' => ∀ a b : Fin l.names.toArray.size, m'.holds a b = true ↔
        m.holds a b = true ∨ (a.val, b.val) ∈ order)
      (pairs.mapM l.lookupPair) (pairs.foldlM (declare l.names.toArray) m) := by
  have hlookup : ∀ x, Both (fun a b => a = b.val) (l.lookup x) (lookup l.names.toArray x) := by
    intro x
    rw [← lookup_eq hsorted]
    cases lookup l.names.toArray x <;> exact rfl
  induction pairs generalizing m with
  | nil => exact fun a b => by simp
  | cons p pairs ih =>
    have hfirst : Both (fun q m' => ∀ a b : Fin l.names.toArray.size,
          m'.holds a b = true ↔ m.holds a b = true ∨ (a.val, b.val) = q)
        (l.lookupPair p) (declare l.names.toArray m p) := by
      refine (hlookup p.1).bind fun _ lo hlo => (hlookup p.2).bind fun _ hi hhi a b => ?_
      rw [holds_mark, hlo, hhi, Prod.mk.injEq, Fin.val_inj, Fin.val_inj, @eq_comm _ a,
        @eq_comm _ b]
    rw [List.mapM_cons, List.foldlM_cons]
    refine hfirst.bind fun q m' hm' => ?_
    rw [← bind_pure (pairs.foldlM _ m')]
    refine (ih m').bind fun order m'' hm'' a b => ?_
    rw [hm'', hm', List.mem_cons, or_assoc]

/-- Steps by declared pairs or in place lead as far as the pairs lead. -/
theorem transGen_iff {n : Nat} {order : List (Level × Level)}
    (hin : ∀ p ∈ order, p.1 < n ∧ p.2 < n) {a b : Fin n} :
    Relation.TransGen (fun u v : Fin n => u = v ∨ (u.val, v.val) ∈ order) a b ↔
      Relation.ReflTransGen (fun u v => (u, v) ∈ order) a.val b.val := by
  constructor
  · intro h
    induction h with
    | single h =>
      rcases h with rfl | h
      · exact .refl
      · exact .single h
    | tail _ h ih =>
      rcases h with rfl | h
      · exact ih
      · exact ih.tail h
  · obtain ⟨b, hb⟩ := b
    intro h
    change Relation.ReflTransGen _ a.val b at h
    induction h with
    | refl => exact .single (.inl rfl)
    | tail _ h ih => exact (ih (hin _ h).1).tail (.inr h)

theorem closed_of_pairs (hsorted : l.names.Pairwise (· < ·)) {order : List (Level × Level)}
    (horder : spec.order.mapM l.lookupPair = .ok order) :
    ∃ m, closed l.names.toArray spec.order = .ok m ∧ ∀ a b : Fin l.names.toArray.size,
      m.holds a b = true ↔ Relation.ReflTransGen (fun u v => (u, v) ∈ order) a.val b.val := by
  have hboth := both_declare hsorted spec.order (.diagonal l.names.toArray.size)
  rw [horder] at hboth
  cases hfold : spec.order.foldlM (declare l.names.toArray) (.diagonal l.names.toArray.size) with
  | error e =>
    rw [hfold] at hboth
    cases hboth
  | ok m =>
    rw [hfold] at hboth
    have hmarked : (fun a b => m.holds a b = true) =
        fun a b : Fin l.names.toArray.size => a = b ∨ (a.val, b.val) ∈ order := by
      funext a b
      rw [hboth a b, holds_diagonal]
    refine ⟨m.close, by rw [closed, hfold]; rfl, fun a b => ?_⟩
    rw [holds_close_iff, hmarked]
    exact transGen_iff (Lattice.lt_of_lookupPairs horder)

theorem closed_of_error (hsorted : l.names.Pairwise (· < ·)) {e : LatticeError}
    (h : spec.order.mapM l.lookupPair = .error e) :
    closed l.names.toArray spec.order = .error e := by
  have hboth := both_declare hsorted spec.order (.diagonal l.names.toArray.size)
  rw [h] at hboth
  cases hfold : spec.order.foldlM (declare l.names.toArray) (.diagonal l.names.toArray.size) with
  | ok m =>
    rw [hfold] at hboth
    cases hboth
  | error e' =>
    rw [hfold] at hboth
    cases hboth
    rw [closed, hfold]
    rfl

theorem cycle?_eq {m : OrderMatrix l.names.toArray.size}
    (h : ∀ a b : Fin l.names.toArray.size, m.holds a b = l.dominatedBy a b) :
    m.cycle?.map (fun p => (p.1.val, p.2.val)) = l.cycle? := by
  have hlevels : l.levels = (List.finRange l.names.toArray.size).map Fin.val :=
    List.map_coe_finRange_eq_range.symm
  rw [Lattice.cycle?, hlevels, OrderMatrix.cycle?, List.map_findSome?, List.findSome?_map]
  refine congrArg (List.findSome? · _) (funext fun a => ?_)
  simp only [Function.comp_apply, List.find?_map, Option.map_map, h]
  rfl

theorem assemble_of_ordered (h : l.Ordered names spec) (hsmall : l.size ≤ maxLevels) :
    (l.cycle? = none ∧ ∃ t, assemble names spec = .ok t ∧ t.Mirrors l) ∨
      ∃ a b, l.cycle? = some (a, b) ∧
        assemble names spec = .error (.cyclicOrder (l.name a) (l.name b)) := by
  have hsorted := h.ascending
  obtain ⟨order, horder, habove⟩ := h.above
  obtain ⟨m, hm, hholds⟩ := closed_of_pairs hsorted horder
  have hdominated : ∀ a b : Fin l.names.toArray.size, m.holds a b = l.dominatedBy a b := by
    intro a b
    have ha : a.val < l.size := a.isLt
    rw [Bool.eq_iff_iff, hholds, Lattice.dominatedBy, habove,
      Lattice.contains_closeOrder (Lattice.lt_of_lookupPairs horder), and_iff_right ha]
  have hcycle := cycle?_eq hdominated
  have hfits : ¬ l.names.toArray.size > maxLevels := Nat.not_lt.2 hsmall
  rw [assemble, ← h.names, if_neg hfits, ofPairs, hm, ok_bind]
  cases hm : m.cycle? with
  | none =>
    rw [hm] at hcycle
    exact .inl ⟨hcycle.symm, ⟨l.names.toArray, m⟩, rfl, rfl, lookup_eq hsorted, hdominated⟩
  | some p =>
    rw [hm] at hcycle
    have hname : ∀ a : Fin l.names.toArray.size, l.names.toArray[a] = l.name a := by
      intro a
      exact Option.some.inj (List.getElem?_eq_getElem a.isLt ▸ Lattice.getElem?_names a.isLt)
    refine .inr ⟨p.1.val, p.2.val, hcycle.symm, ?_⟩
    rw [← hname, ← hname]
    rfl

/-- A cycle is reported in an order whose names are all known. -/
theorem exists_ordered_of_assemble {x y : String}
    (h : assemble names spec = .error (.cyclicOrder x y)) :
    ∃ l : Lattice, l.Ordered names spec ∧ l.size ≤ maxLevels := by
  let bare : Lattice := ⟨(SortedSet.ofList (names ++ spec.levels)).toList, #[], [], none⟩
  have hsorted : bare.names.Pairwise (· < ·) :=
    (SortedSet.ascending _).imp compareOfLessAndEq_eq_lt.1
  have hrun : assemble names spec = if bare.size > maxLevels then .error (.tooManyLevels bare.size)
      else ofPairs bare.names.toArray spec.order := rfl
  rw [hrun] at h
  split at h
  · cases h
  · rename_i hsmall
    cases horder : spec.order.mapM bare.lookupPair with
    | error e =>
      obtain ⟨z, rfl⟩ := Lattice.unknown_of_lookupPairs horder
      rw [ofPairs, closed_of_error hsorted horder] at h
      cases h
    | ok order =>
      exact ⟨{ bare with above := Lattice.closeOrder bare.size order }, ⟨rfl, order, horder, rfl⟩,
        Nat.not_lt.1 hsmall⟩

end OrderTable

end Enclave
