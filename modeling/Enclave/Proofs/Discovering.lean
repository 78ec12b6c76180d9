import Enclave.Files.Discovery
import Enclave.Proofs.FileNames
import Enclave.Proofs.Paths
import Mathlib.Data.List.Nodup

/-!
# Enclave.Proofs.Discovering

Which files a search through a directory finds. The walk through the directory is a parameter:
`Walk.Visits` is what it is trusted with, that it comes once to every entry down to its depth to
which only entries lead that its caller keeps, and to no other. `FileTree.visits_walk` shows it of
the walk through a tree.

A tree is read through `get?`, which follows names from its root; `Visible` says of a file, by the
directories that lead to it, whether a search looks at it, and `Decides` which suffix tells its
kind. Neither mentions the order in which a directory lists what it holds.

* `discover_exact`: a search finds exactly the visible files of every kind, in the order of their
  paths, or says which of the kinds that are needed it has not found; listing the directories of the
  tree in another order changes nothing.
-/

namespace Enclave

open Std

def InputKind.Before (a b : InputKind) : Prop := all.idxOf a < all.idxOf b

instance (a b : InputKind) : Decidable (a.Before b) :=
  inferInstanceAs (Decidable (InputKind.all.idxOf a < InputKind.all.idxOf b))

theorem InputKind.mem_all (kind : InputKind) : kind ∈ all := by
  cases kind <;> decide

namespace Suffixes

variable {s : Suffixes} {name : String} {kind : InputKind}

/-- The name of a file ends in the suffix of a kind. An empty suffix fits no file. -/
structure Fits (s : Suffixes) (name : String) (kind : InputKind) : Prop where
  nonempty : s.get kind ≠ ""
  suffix : (s.get kind).toList <:+ name.toList

/-- Of the suffixes that fit, that of the kind is the longest, and of several the first. -/
structure Decides (s : Suffixes) (name : String) (kind : InputKind) : Prop where
  fits : s.Fits name kind
  longest : ∀ other, s.Fits name other → other ≠ kind →
    (s.get other).utf8ByteSize < (s.get kind).utf8ByteSize ∨
      (s.get other).utf8ByteSize = (s.get kind).utf8ByteSize ∧ kind.Before other

theorem fits_iff : s.Fits name kind ↔ (s.get kind != "" && hasSuffix name (s.get kind)) = true := by
  rw [Bool.and_eq_true, bne_iff_ne, hasSuffix, List.isPrefixOf_iff_prefix, List.reverse_prefix]
  exact ⟨fun h => ⟨h.nonempty, h.suffix⟩, fun h => ⟨h.1, h.2⟩⟩

instance (s : Suffixes) (name : String) (kind : InputKind) : Decidable (s.Fits name kind) :=
  decidable_of_iff _ fits_iff.symm

instance (s : Suffixes) (name : String) (kind : InputKind) : Decidable (s.Decides name kind) :=
  decidable_of_iff (s.Fits name kind ∧ ∀ other ∈ InputKind.all, s.Fits name other → other ≠ kind →
      (s.get other).utf8ByteSize < (s.get kind).utf8ByteSize ∨
        (s.get other).utf8ByteSize = (s.get kind).utf8ByteSize ∧ kind.Before other)
    ⟨fun h => ⟨h.1, fun other => h.2 other other.mem_all⟩, fun h => ⟨h.1, fun other _ => h.2 other⟩⟩

theorem mem_byLength (s : Suffixes) (kind : InputKind) : kind ∈ s.byLength :=
  (sortBy_perm _ _).mem_iff.2 kind.mem_all

theorem pairwise_byLength (s : Suffixes) : s.byLength.Pairwise fun a b =>
    (s.get b).utf8ByteSize < (s.get a).utf8ByteSize ∨
      (s.get b).utf8ByteSize = (s.get a).utf8ByteSize ∧ a.Before b := by
  have hall : InputKind.all.Pairwise InputKind.Before := by decide
  refine (pairwise_sortBy InputKind.Before (fun a b h => ?_) (fun a b c hab hbc => ?_) hall).imp
    fun {a b} h => ?_
  · rw [decide_eq_true_eq] at h
    rw [decide_eq_false_iff_not]
    omega
  · rw [decide_eq_false_iff_not] at hab hbc ⊢
    omega
  · rw [decide_eq_true_eq, decide_eq_false_iff_not, Nat.not_lt] at h
    rcases h with h | ⟨h, hbefore⟩
    · exact .inl h
    · exact (Nat.lt_or_eq_of_le h).imp id fun heq => ⟨heq, hbefore⟩

theorem kindOf?_eq_some_iff : s.kindOf? name = some kind ↔ s.Decides name kind := by
  have hsorted := s.pairwise_byLength
  rw [kindOf?, List.find?_eq_some_iff_append, ← fits_iff]
  constructor
  · rintro ⟨hfits, before, after, hsplit, hbefore⟩
    refine ⟨hfits, fun other hother hne => ?_⟩
    rw [hsplit, List.pairwise_append, List.pairwise_cons] at hsorted
    have hmem := s.mem_byLength other
    rw [hsplit, List.mem_append, List.mem_cons] at hmem
    rcases hmem with hmem | rfl | hmem
    · have := hbefore other hmem
      rw [fits_iff.1 hother] at this
      cases this
    · exact absurd rfl hne
    · exact hsorted.2.1.1 other hmem
  · rintro ⟨hfits, hlongest⟩
    obtain ⟨before, after, hsplit⟩ := List.append_of_mem (s.mem_byLength kind)
    refine ⟨hfits, before, after, hsplit, fun other hother => ?_⟩
    rw [hsplit, List.pairwise_append] at hsorted
    have horder := hsorted.2.2 other hother kind List.mem_cons_self
    rw [Bool.not_eq_true', ← Bool.not_eq_true, ← fits_iff]
    intro hfits'
    have hne : other ≠ kind := by
      rintro rfl
      rcases horder with h | ⟨-, h⟩
      · exact Nat.lt_irrefl _ h
      · exact Nat.lt_irrefl _ h
    have hlong := hlongest other hfits' hne
    simp only [InputKind.Before] at horder hlong
    omega

end Suffixes

namespace FileTree

variable {e f t tree : FileTree} {entries : List (FileName × FileTree)} {name : FileName}
  {names pre below : List FileName} {start : FileName} {keep : Visit → Bool} {left : Nat}
  {v : Visit}

/--
A tree as a disk can hold it: in a directory each name stands once, and one that is text can stand
in a path.
-/
inductive IsTree : FileTree → Prop
  | file : IsTree .file
  | other : IsTree .other
  | directory {entries : List (FileName × FileTree)} : (entries.map (·.1)).Nodup →
      (∀ entry ∈ entries, ∀ s, entry.1 = .ofText s → Path.IsName s) →
      (∀ entry ∈ entries, IsTree entry.2) → IsTree (.directory entries)

/-- Another order in which the directories of a tree list what they hold. -/
inductive Reordered : FileTree → FileTree → Prop
  | listing {es fs : List (FileName × FileTree)} :
      es.Perm fs → Reordered (.directory es) (.directory fs)
  | inside {e f : FileTree} (before : List (FileName × FileTree)) (name : FileName)
      (after : List (FileName × FileTree)) : Reordered e f →
      Reordered (.directory (before ++ (name, e) :: after))
        (.directory (before ++ (name, f) :: after))
  | trans {e f g : FileTree} : Reordered e f → Reordered f g → Reordered e g

theorem get?_directory_cons (h : (entries.map (·.1)).Nodup) :
    (directory entries).get? (name :: names) = some f ↔
      ∃ e, (name, e) ∈ entries ∧ e.get? names = some f := by
  simp only [← lookup_eq_some_iff_mem h, get?]
  cases entries.lookup name <;> simp

theorem get?_append (e : FileTree) (names rest : List FileName) :
    e.get? (names ++ rest) = (e.get? names).bind (·.get? rest) := by
  induction names generalizing e with
  | nil => simp [get?]
  | cons name names ih =>
    cases e with
    | directory entries =>
      rw [List.cons_append, get?, get?]
      cases entries.lookup name with
      | none => rfl
      | some e => exact ih e
    | _ => rfl

theorem IsTree.isName (h : e.IsTree) (hget : e.get? names = some f) :
    ∀ name ∈ names, ∀ s, name = .ofText s → Path.IsName s := by
  induction h generalizing names with
  | @directory entries hnodup hnames htrees ih =>
    cases names with
    | nil => simp
    | cons name rest =>
      obtain ⟨e, hentry, hrest⟩ := (get?_directory_cons hnodup).1 hget
      rw [List.forall_mem_cons]
      exact ⟨hnames _ hentry, ih _ hentry hrest⟩
  | _ =>
    cases names with
    | nil => simp
    | cons name rest => cases hget

/-- The caller of a walk keeps an entry and all that lead to it. -/
def Passes (start : FileName) (keep : Visit → Bool) (below : List FileName) (e : FileTree)
    (names : List FileName) : Prop :=
  ∀ pre t, pre <+: names → e.get? pre = some t → keep (visitTo start (below ++ pre) t) = true

theorem passes_nil : Passes start keep below e [] ↔ keep (visitTo start below e) = true := by
  constructor
  · intro h
    have := h [] e List.prefix_rfl rfl
    rwa [List.append_nil] at this
  · intro h pre t hpre hget
    obtain rfl := List.prefix_nil.1 hpre
    cases hget
    rwa [List.append_nil]

theorem passes_cons (h : entries.lookup name = some e) :
    Passes start keep below (directory entries) (name :: names) ↔
      keep (visitTo start below (directory entries)) = true ∧
        Passes start keep (below ++ [name]) e names := by
  constructor
  · intro hpasses
    refine ⟨passes_nil.1 fun pre t hpre => hpasses pre t (hpre.trans List.nil_prefix), ?_⟩
    intro pre t hpre hget
    have hget' : (directory entries).get? (name :: pre) = some t := by
      rw [get?, h]
      exact hget
    have := hpasses (name :: pre) t (List.cons_prefix_cons.2 ⟨rfl, hpre⟩) hget'
    rwa [List.append_cons] at this
  · rintro ⟨hroot, hrest⟩ pre t hpre hget
    cases pre with
    | nil =>
      cases hget
      rwa [List.append_nil]
    | cons name' pre =>
      obtain ⟨rfl, hrest'⟩ := List.cons_prefix_cons.1 hpre
      rw [get?, h] at hget
      rw [List.append_cons]
      exact hrest pre t hrest' hget

end FileTree

/--
A walk through a tree: down to its depth it comes to every entry that its caller keeps with all that
lead to it, once, and to no other. There may be causes between the visits for what it could not
read.
-/
structure Walk.Visits (walk : Walk) (start : FileName) (tree : FileTree) : Prop where
  once : ∀ limit keep, ((walk limit keep).filterMap Except.toOption).Nodup
  exact : ∀ limit keep v, v ∈ (walk limit keep).filterMap Except.toOption ↔
    ∃ names e, tree.get? names = some e ∧ names.length ≤ limit ∧
      FileTree.Passes start keep [] tree names ∧ v = FileTree.visitTo start names e

namespace FileTree

variable {e f t tree : FileTree} {entries : List (FileName × FileTree)} {name : FileName}
  {names pre below : List FileName} {start : FileName} {keep : Visit → Bool} {left : Nat}
  {v : Visit}

theorem visits_directory (start : FileName) (keep : Visit → Bool) (left : Nat)
    (below : List FileName) (entries : List (FileName × FileTree)) :
    (directory entries).visits start keep (left + 1) below =
      if keep (visitTo start below (directory entries)) then
        visitTo start below (directory entries) :: (sortOn (·.1) entries).flatMap fun entry =>
          entry.2.visits start keep left (below ++ [entry.1])
      else [] := by
  rw [visits]

theorem visits_last (h : ∀ n entries, left = n + 1 → e ≠ directory entries) :
    e.visits start keep left below =
      if keep (visitTo start below e) then [visitTo start below e] else [] := by
  rw [visits]
  exact h

theorem mem_visits_of_last (h : ∀ n entries, left = n + 1 → e ≠ directory entries)
    (hlast : ∀ names f, e.get? names = some f → names.length ≤ left → names = []) :
    v ∈ e.visits start keep left below ↔
      ∃ names f, e.get? names = some f ∧ names.length ≤ left ∧
        Passes start keep below e names ∧ v = visitTo start (below ++ names) f := by
  rw [visits_last h]
  constructor
  · intro hv
    split at hv
    · rename_i hkeep
      refine ⟨[], e, rfl, Nat.zero_le _, passes_nil.2 hkeep, ?_⟩
      rw [List.append_nil]
      exact List.mem_singleton.1 hv
    · cases hv
  · rintro ⟨names, f, hget, hlength, hpasses, rfl⟩
    obtain rfl := hlast names f hget hlength
    cases hget
    rw [if_pos (passes_nil.1 hpasses), List.append_nil]
    exact List.mem_singleton.2 rfl

theorem mem_visits (h : e.IsTree) : v ∈ e.visits start keep left below ↔
    ∃ names f, e.get? names = some f ∧ names.length ≤ left ∧
      Passes start keep below e names ∧ v = visitTo start (below ++ names) f := by
  induction left generalizing e below v with
  | zero =>
    exact mem_visits_of_last nofun fun names f _ hlength => List.length_eq_zero_iff.1 (by omega)
  | succ left ih =>
    cases h with
    | @directory entries hnodup hnames htrees =>
      have hentry : ∀ name e, (name, e) ∈ sortOn (·.1) entries ↔ entries.lookup name = some e := by
        intro name e
        rw [(sortOn_perm _ _).mem_iff, lookup_eq_some_iff_mem hnodup]
      rw [visits_directory]
      constructor
      · intro hv
        split at hv
        · rename_i hkeep
          rcases List.mem_cons.1 hv with rfl | hv
          · refine ⟨[], directory entries, rfl, Nat.zero_le _, passes_nil.2 hkeep, ?_⟩
            rw [List.append_nil]
          · obtain ⟨⟨name, e⟩, hmem, hv⟩ := List.mem_flatMap.1 hv
            have hlookup := (hentry name e).1 hmem
            have htree := htrees _ ((sortOn_perm _ _).mem_iff.1 hmem)
            obtain ⟨names, f, hget, hlength, hpasses, rfl⟩ := (ih htree).1 hv
            refine ⟨name :: names, f, ?_, Nat.succ_le_succ hlength,
              (passes_cons hlookup).2 ⟨hkeep, hpasses⟩, ?_⟩
            · rw [get?, hlookup]
              exact hget
            · rw [← List.append_cons]
        · cases hv
      · rintro ⟨names, f, hget, hlength, hpasses, rfl⟩
        cases names with
        | nil =>
          cases hget
          rw [if_pos (passes_nil.1 hpasses), List.append_nil]
          exact List.mem_cons_self
        | cons name names =>
          obtain ⟨e, hmem, hget⟩ := (get?_directory_cons hnodup).1 hget
          have hlookup := (lookup_eq_some_iff_mem hnodup).2 hmem
          obtain ⟨hkeep, hpasses⟩ := (passes_cons hlookup).1 hpasses
          rw [if_pos hkeep, List.append_cons below]
          refine List.mem_cons_of_mem _ (List.mem_flatMap.2 ⟨(name, e), (hentry _ _).2 hlookup, ?_⟩)
          exact (ih (htrees _ hmem)).2
            ⟨names, f, hget, Nat.le_of_succ_le_succ hlength, hpasses, rfl⟩
    | _ =>
      refine mem_visits_of_last nofun fun names f hget _ => ?_
      cases names with
      | nil => rfl
      | cons name names => cases hget

theorem nodup_visits (h : e.IsTree) : (e.visits start keep left below).Nodup := by
  induction left generalizing e below with
  | zero =>
    rw [visits_last]
    · split <;> simp
    · nofun
  | succ left ih =>
    cases h with
    | @directory entries hnodup hnames htrees =>
      have hsorted : ((sortOn (·.1) entries).map (·.1)).Nodup :=
        ((sortOn_perm _ _).map _).nodup_iff.2 hnodup
      have hmem : ∀ entry ∈ sortOn (·.1) entries, entry.2.IsTree := fun entry hentry =>
        htrees entry ((sortOn_perm _ _).mem_iff.1 hentry)
      -- what comes from an entry leads through its name
      have hbelow : ∀ entry ∈ sortOn (·.1) entries, ∀ v ∈
          entry.2.visits start keep left (below ++ [entry.1]), below ++ [entry.1] <+: v.below := by
        intro entry hentry v hv
        obtain ⟨names, f, -, -, -, rfl⟩ := (mem_visits (hmem entry hentry)).1 hv
        exact List.prefix_append _ _
      rw [visits_directory]
      split
      · refine List.nodup_cons.2 ⟨fun hv => ?_, List.nodup_flatMap.2 ⟨fun entry hentry => ?_, ?_⟩⟩
        · obtain ⟨entry, hentry, hv⟩ := List.mem_flatMap.1 hv
          have hlength := (hbelow entry hentry _ hv).length_le
          rw [List.length_append, List.length_singleton] at hlength
          exact Nat.not_succ_le_self _ hlength
        · exact ih (hmem entry hentry)
        · refine (List.pairwise_map.1 hsorted).imp_of_mem fun {a b} ha hb hne v hva hvb => ?_
          have heq := List.append_inj_right' (List.prefix_of_prefix_length_le
            (hbelow a ha v hva) (hbelow b hb v hvb) (by simp) |>.eq_of_length (by simp)) rfl
          exact hne (List.singleton_inj.1 heq)
      · exact List.nodup_nil
    | _ =>
      rw [visits_last]
      · split <;> simp
      · nofun

theorem visits_walk (h : tree.IsTree) (start : FileName) :
    (tree.walk start).Visits start tree := by
  have hok : ∀ limit keep, ((tree.walk start) limit keep).filterMap Except.toOption =
      tree.visits start keep limit [] := by
    intro limit keep
    rw [walk, List.filterMap_map]
    exact List.filterMap_some
  constructor
  · intro limit keep
    rw [hok]
    exact nodup_visits h
  · intro limit keep v
    rw [hok, mem_visits h]
    simp only [List.nil_append]

theorem Reordered.isTree (h : Reordered e f) (he : e.IsTree) : f.IsTree := by
  induction h with
  | listing hperm =>
    cases he with
    | directory hnodup hnames htrees =>
      exact .directory ((hperm.map _).nodup_iff.1 hnodup)
        (fun entry hentry => hnames entry (hperm.mem_iff.2 hentry))
        (fun entry hentry => htrees entry (hperm.mem_iff.2 hentry))
  | @inside e f before name after _ ih =>
    cases he with
    | directory hnodup hnames htrees =>
      simp only [List.map_append, List.map_cons, List.forall_mem_append,
        List.forall_mem_cons] at hnodup hnames htrees
      refine .directory ?_ ?_ ?_
      · simpa only [List.map_append, List.map_cons] using hnodup
      · simpa only [List.forall_mem_append, List.forall_mem_cons] using hnames
      · simp only [List.forall_mem_append, List.forall_mem_cons]
        exact ⟨htrees.1, ih htrees.2.1, htrees.2.2⟩
  | trans _ _ ih ih' => exact ih' (ih he)

theorem Reordered.type_get? (h : Reordered e f) (he : e.IsTree) (names : List FileName) :
    (e.get? names).map type = (f.get? names).map type := by
  induction h generalizing names with
  | listing hperm =>
    cases he with
    | directory hnodup _ _ =>
      cases names with
      | nil => rfl
      | cons name names =>
        refine congrArg (Option.map type) (Option.ext fun g => ?_)
        rw [get?_directory_cons hnodup, get?_directory_cons ((hperm.map _).nodup_iff.1 hnodup)]
        simp only [hperm.mem_iff]
  | @inside e f before name after _ ih =>
    cases he with
    | directory _ _ htrees =>
      have hsame := ih (htrees (name, e) (by simp))
      cases names with
      | nil => rfl
      | cons name' names =>
        simp only [get?, List.lookup_append, List.lookup_cons]
        cases before.lookup name' with
        | some g => rfl
        | none =>
          cases name' == name with
          | true => exact hsame names
          | false => rfl
  | trans h _ ih ih' => exact (ih he names).trans (ih' (h.isTree he) names)

theorem map_type_eq_file {o : Option FileTree} : o.map type = some .file ↔ o = some .file := by
  rcases o with _ | (_ | _ | _) <;> simp [type]

end FileTree

namespace Discovery

variable {dir : String} {s : Suffixes} {walk : Walk} {start : FileName} {tree : FileTree}
  {kind : InputKind} {dirs names : List FileName} {name : FileName} {paths : InputPaths}

/-- A file that a search looks at: the directories on the way to it, and its own name. -/
structure Visible (tree : FileTree) (dirs : List FileName) (name : FileName) : Prop where
  file : tree.get? (dirs ++ [name]) = some .file
  depth : dirs.length + 1 ≤ 8
  shown : ∀ d ∈ dirs, d.bytes.head? ≠ some '.'.toUInt8

def Found (s : Suffixes) (tree : FileTree) (kind : InputKind) (names : List FileName) : Prop :=
  ∃ dirs name text, names = dirs ++ [name] ∧ Visible tree dirs name ∧ name = .ofText text ∧
    s.Decides text kind

/--
The files of a kind and the paths that they are seen by. Where all names are text, the kind of a
path is that of its file, and the paths are in their own order.
-/
structure Listed (dir : String) (s : Suffixes) (tree : FileTree) (kind : InputKind)
    (files : List (List FileName)) (paths : List String) : Prop where
  seen : paths = files.map (pathOf dir)
  exact : ∀ names, names ∈ files ↔ Found s tree kind names
  ascending : files.Pairwise (compare · · = .lt)
  classified : ∀ texts : List String, texts.map .ofText ∈ files →
    s.classify (pathOf dir (texts.map .ofText)) = some kind
  ordered : files.Pairwise fun a b => ∀ texts texts' : List String, a = texts.map .ofText →
    b = texts'.map .ofText → Path.order (pathOf dir a) (pathOf dir b) = .lt

/-- How a search ends: with what it finds, or with what is missing of labels and facts. -/
inductive Concludes (dir : String) (s : Suffixes) (tree : FileTree) :
    Except (List InputError) InputPaths → Prop
  | found {paths : InputPaths} :
      (∀ kind, ∃ files, Listed dir s tree kind files (paths.get kind)) →
      (∃ names, Found s tree .labels names) → (∃ names, Found s tree .ir names) →
      Concludes dir s tree (.ok paths)
  | missing {kinds : List InputKind} : kinds ≠ [] → kinds.Sublist [.labels, .ir] →
      (∀ kind ∈ [InputKind.labels, .ir], kind ∈ kinds ↔ ∀ names, ¬ Found s tree kind names) →
      Concludes dir s tree (.error (kinds.map fun kind => .notFound dir (s.get kind)))

/-- A search comes to a file unless a directory on the way to it is hidden. -/
theorem passes_enters (h : tree.get? (dirs ++ [name]) = some .file) :
    FileTree.Passes start enters [] tree (dirs ++ [name]) ↔
      ∀ d ∈ dirs, d.bytes.head? ≠ some '.'.toUInt8 := by
  constructor
  · intro hpasses d hd
    obtain ⟨before, after, rfl⟩ := List.append_of_mem hd
    have hsplit : before ++ d :: after ++ [name] = (before ++ [d]) ++ (after ++ [name]) := by simp
    rw [hsplit, FileTree.get?_append] at h
    obtain ⟨t, hget, hrest⟩ := Option.bind_eq_some_iff.1 h
    have htype : t.type = .directory := by
      cases t with
      | directory entries => rfl
      | _ => cases after <;> cases hrest
    have hpass := hpasses (before ++ [d]) t (hsplit ▸ List.prefix_append _ _) hget
    simpa [enters, FileTree.visitTo, htype, FileName.startsWithDot] using hpass
  · intro hshown pre t hpre hget
    rcases List.prefix_concat_iff.1 hpre with rfl | hpre
    · rw [h] at hget
      cases hget
      simp [enters, FileTree.visitTo, FileTree.type]
    · cases hlast : pre.getLast? with
      | none =>
        rw [List.getLast?_eq_none_iff] at hlast
        simp [enters, FileTree.visitTo, hlast]
      | some d =>
        have hd := hshown d (hpre.subset (List.mem_of_getLast? hlast))
        simp [enters, FileTree.visitTo, hlast, FileName.startsWithDot, hd]

theorem mem_filesOf (hwalk : walk.Visits start tree) (hdir : tree.type = .directory) :
    names ∈ filesOf walk ↔ ∃ dirs name, names = dirs ++ [name] ∧ Visible tree dirs name := by
  have hfile : names ∈ filesOf walk ↔ tree.get? names = some .file ∧ names.length ≤ maxDepth ∧
      FileTree.Passes start enters [] tree names := by
    simp only [filesOf, List.mem_map, List.mem_filter, hwalk.exact, beq_iff_eq]
    constructor
    · rintro ⟨v, ⟨⟨names, e, hget, hlength, hpasses, rfl⟩, htype⟩, rfl⟩
      refine ⟨?_, hlength, hpasses⟩
      change tree.get? names = some .file
      rw [← FileTree.map_type_eq_file, hget]
      exact congrArg some htype
    · rintro ⟨hget, hlength, hpasses⟩
      exact ⟨_, ⟨⟨names, _, hget, hlength, hpasses, rfl⟩, rfl⟩, rfl⟩
  rw [hfile]
  constructor
  · rintro ⟨hget, hlength, hpasses⟩
    rcases List.eq_nil_or_concat' names with rfl | ⟨dirs, name, rfl⟩
    · cases hget
      cases hdir
    · refine ⟨dirs, name, rfl, hget, ?_, (passes_enters hget).1 hpasses⟩
      simpa [maxDepth] using hlength
  · rintro ⟨dirs, name, rfl, hget, hlength, hshown⟩
    refine ⟨hget, ?_, (passes_enters hget).2 hshown⟩
    simpa [maxDepth] using hlength

theorem nodup_filesOf (hwalk : walk.Visits start tree) : (filesOf walk).Nodup := by
  refine List.Nodup.map_on (fun v hv w hw heq => ?_) ((hwalk.once maxDepth enters).filter _)
  obtain ⟨names, e, hget, -, -, rfl⟩ := (hwalk.exact _ _ _).1 (List.mem_of_mem_filter hv)
  obtain ⟨names', e', hget', -, -, rfl⟩ := (hwalk.exact _ _ _).1 (List.mem_of_mem_filter hw)
  change names = names' at heq
  subst heq
  rw [hget] at hget'
  cases hget'
  rfl

theorem kindOf?_eq_some_iff : kindOf? s (dirs ++ [name]) = some kind ↔
    ∃ text, name = .ofText text ∧ s.Decides text kind := by
  rw [kindOf?, List.getLast?_concat, Option.bind_some, Option.bind_eq_some_iff]
  simp only [FileName.text?_eq_some_iff, Suffixes.kindOf?_eq_some_iff]

theorem mem_ofKind (hwalk : walk.Visits start tree) (hdir : tree.type = .directory) :
    names ∈ ofKind s (filesOf walk) kind ↔ Found s tree kind names := by
  rw [ofKind, (sortOn_perm _ _).mem_iff, List.mem_filter, mem_filesOf hwalk hdir, beq_iff_eq]
  constructor
  · rintro ⟨⟨dirs, name, rfl, hvisible⟩, hkind⟩
    obtain ⟨text, rfl, hdecides⟩ := kindOf?_eq_some_iff.1 hkind
    exact ⟨dirs, _, text, rfl, hvisible, rfl, hdecides⟩
  · rintro ⟨dirs, name, text, rfl, hvisible, rfl, hdecides⟩
    exact ⟨⟨dirs, _, rfl, hvisible⟩, kindOf?_eq_some_iff.2 ⟨text, rfl, hdecides⟩⟩

theorem ascending_ofKind (hwalk : walk.Visits start tree) (s : Suffixes) (kind : InputKind) :
    (ofKind s (filesOf walk) kind).Pairwise (compare · · = .lt) := by
  have hnodup := (nodup_filesOf hwalk).filter fun names => kindOf? s names == some kind
  rw [← List.map_id (ofKind s (filesOf walk) kind)]
  refine pairwise_lt_sortOn id ?_
  rwa [List.map_id]

section Spelling

variable {texts texts' : List String}

theorem pathOf_ofText (dir : String) (texts : List String) :
    pathOf dir (texts.map .ofText) = texts.foldl Path.join dir := by
  have hshown : ∀ text, (FileName.ofText text).shown = text := fun text => by
    rw [FileName.shown, FileName.text?_eq_some_iff.2 rfl]
  rw [pathOf, List.foldl_map]
  simp only [hshown]

theorem compare_ofText_map : compare (texts.map FileName.ofText) (texts'.map FileName.ofText) =
    compare (texts.map Path.Component.normal) (texts'.map Path.Component.normal) := by
  induction texts generalizing texts' with
  | nil => cases texts' <;> rfl
  | cons text texts ih =>
    cases texts' with
    | nil => rfl
    | cons text' texts' =>
      have hnormal : compare (Path.Component.normal text) (.normal text') = compare text text' :=
        rfl
      simp only [List.map_cons, List.compare_cons_cons, FileName.compare_ofText, hnormal, ih]

theorem order_pathOf (h : ∀ text ∈ texts, Path.IsName text) (h' : ∀ text ∈ texts', Path.IsName text)
    (dir : String) :
    Path.order (pathOf dir (texts.map .ofText)) (pathOf dir (texts'.map .ofText)) =
      compare (texts.map FileName.ofText) (texts'.map FileName.ofText) := by
  rw [Path.order, pathOf_ofText, pathOf_ofText, Path.components_foldl_join h,
    Path.components_foldl_join h', compare_append_left, compare_ofText_map]

end Spelling

theorem get_classified (dir : String) (s : Suffixes) (files : List (List FileName))
    (kind : InputKind) :
    (classified dir s files).get kind = (ofKind s files kind).map (pathOf dir) := by
  cases kind <;> rfl

theorem Found.isName {texts : List String} (htree : tree.IsTree)
    (h : Found s tree kind (texts.map .ofText)) : ∀ text ∈ texts, Path.IsName text := by
  obtain ⟨dirs, name, text, hnames, hvisible, -, -⟩ := h
  intro text htext
  have hname := htree.isName hvisible.file (.ofText text)
    (hnames ▸ List.mem_map_of_mem htext)
  exact hname text rfl

theorem listed_ofKind (htree : tree.IsTree) (hdir : tree.type = .directory)
    (hwalk : walk.Visits start tree) (dir : String) (s : Suffixes) (kind : InputKind) :
    Listed dir s tree kind (ofKind s (filesOf walk) kind)
      ((classified dir s (filesOf walk)).get kind) where
  seen := get_classified dir s _ kind
  exact _ := mem_ofKind hwalk hdir
  ascending := ascending_ofKind hwalk s kind
  classified texts htexts := by
    have hfound := (mem_ofKind hwalk hdir).1 htexts
    have hnames := hfound.isName htree
    obtain ⟨dirs, name, text, heq, -, rfl, hdecides⟩ := hfound
    have hlast : texts.getLast? = some text := by
      have hmap := congrArg List.getLast? heq
      rw [List.getLast?_map, List.getLast?_concat, Option.map_eq_some_iff] at hmap
      obtain ⟨text', hlast, hsame⟩ := hmap
      have := FileName.text?_eq_some_iff.2 hsame.symm
      rw [FileName.text?_eq_some_iff.2 rfl] at this
      rwa [Option.some.inj this]
    rw [Suffixes.classify, pathOf_ofText, Path.fileName?_foldl_join hnames hlast]
    exact Suffixes.kindOf?_eq_some_iff.2 hdecides
  ordered := by
    refine (ascending_ofKind hwalk s kind).imp_of_mem fun {a b} ha hb hab texts texts' hta htb => ?_
    subst hta htb
    rw [order_pathOf (((mem_ofKind hwalk hdir).1 ha).isName htree)
      (((mem_ofKind hwalk hdir).1 hb).isName htree)]
    exact hab

theorem missingKinds_eq (paths : InputPaths) : paths.missingKinds =
    [InputKind.labels, .ir].filter fun kind => (paths.get kind).isEmpty := by
  simp [InputPaths.missingKinds, InputKind.all, InputKind.isRequired, List.filter_cons]

theorem concludes_discover (htree : tree.IsTree) (hdir : tree.type = .directory)
    (hwalk : walk.Visits start tree) (dir : String) (s : Suffixes) :
    Concludes dir s tree (discover dir s (.directory walk)) := by
  have hlists := listed_ofKind htree hdir hwalk dir s
  have hempty : ∀ kind, ((classified dir s (filesOf walk)).get kind).isEmpty = true ↔
      ∀ names, ¬ Found s tree kind names := by
    intro kind
    rw [get_classified, List.isEmpty_iff, List.map_eq_nil_iff, List.eq_nil_iff_forall_not_mem]
    simp only [(hlists kind).exact]
  have hmissing := missingKinds_eq (classified dir s (filesOf walk))
  simp only [discover]
  cases hkinds : (classified dir s (filesOf walk)).missingKinds with
  | nil =>
    rw [hkinds, eq_comm, List.filter_eq_nil_iff] at hmissing
    have hfound : ∀ kind ∈ [InputKind.labels, .ir], ∃ names, Found s tree kind names := by
      intro kind hkind
      have hsome := hmissing kind hkind
      rw [hempty] at hsome
      exact not_forall_not.1 hsome
    exact .found (fun kind => ⟨_, hlists kind⟩) (hfound .labels (by simp)) (hfound .ir (by simp))
  | cons kind kinds =>
    rw [hkinds] at hmissing
    refine .missing (List.cons_ne_nil kind kinds) ?_ fun k hk => ?_
    · rw [hmissing]
      exact List.filter_sublist
    · rw [hmissing, List.mem_filter, hempty]
      exact and_iff_right hk

theorem found_of_reordered {tree' : FileTree} (htree : tree.IsTree) (h : tree.Reordered tree') :
    Found s tree' kind names ↔ Found s tree kind names := by
  have hfile : ∀ names, tree'.get? names = some .file ↔ tree.get? names = some .file := by
    intro names
    rw [← FileTree.map_type_eq_file, ← FileTree.map_type_eq_file, h.type_get? htree]
  have hvisible : ∀ dirs name, Visible tree' dirs name ↔ Visible tree dirs name := fun dirs name =>
    ⟨fun ⟨hget, hdepth, hshown⟩ => ⟨(hfile _).1 hget, hdepth, hshown⟩,
      fun ⟨hget, hdepth, hshown⟩ => ⟨(hfile _).2 hget, hdepth, hshown⟩⟩
  simp only [Found, hvisible]

/-- What is found depends neither on the order in which directories list their entries nor on how
they are walked through. -/
theorem ofKind_of_reordered {tree' : FileTree} {walk' : Walk} {start' : FileName}
    (htree : tree.IsTree) (hdir : tree.type = .directory) (hwalk : walk.Visits start tree)
    (h : tree.Reordered tree') (hwalk' : walk'.Visits start' tree') (s : Suffixes)
    (kind : InputKind) : ofKind s (filesOf walk') kind = ofKind s (filesOf walk) kind := by
  have hdir' : tree'.type = .directory := by
    have htype := h.type_get? htree []
    simpa [FileTree.get?, hdir] using htype.symm
  refine eq_of_pairwise_of_mem not_lt_of_lt (ascending_ofKind hwalk' s kind)
    (ascending_ofKind hwalk s kind) fun names => ?_
  rw [mem_ofKind hwalk' hdir', mem_ofKind hwalk hdir, found_of_reordered htree h]

/--
A search through a tree of files, by a walk that comes to its entries, finds for every kind exactly
the regular files that are at most eight levels down, in no hidden directory, and have the kind that
the longest suffix of their name tells, each once and in the order of the paths. It ends well if
there are labels and facts among them, and otherwise names each of the two that is missing. The
order in which directories list their entries plays no part, and neither does the name of the
directory in which the search begins.
-/
theorem discover_exact (dir : String) (s : Suffixes) {walk : Walk} {start : FileName}
    {tree : FileTree} (htree : tree.IsTree) (hdir : tree.type = .directory)
    (hwalk : walk.Visits start tree) :
    Concludes dir s tree (discover dir s (.directory walk)) ∧
    ∀ (tree' : FileTree) (walk' : Walk) (start' : FileName), tree.Reordered tree' →
      walk'.Visits start' tree' →
      discover dir s (.directory walk') = discover dir s (.directory walk) := by
  refine ⟨concludes_discover htree hdir hwalk dir s, fun tree' walk' start' hother hwalk' => ?_⟩
  have hclassified : classified dir s (filesOf walk') = classified dir s (filesOf walk) := by
    simp only [classified, ofKind_of_reordered htree hdir hwalk hother hwalk']
  simp only [discover, hclassified]

theorem isTree_directory {entries : List (FileName × FileTree)}
    (hnodup : (entries.map (·.1)).Nodup)
    (hnames : ∀ entry ∈ entries, (entry.1.text?.all fun text => Path.IsName text) = true)
    (htrees : ∀ entry ∈ entries, entry.2.IsTree) : (FileTree.directory entries).IsTree := by
  refine .directory hnodup (fun entry hentry text htext => ?_) htrees
  have hname := hnames entry hentry
  rw [FileName.text?_eq_some_iff.2 htext] at hname
  simpa using hname

def below (dirs : List FileName) (e : FileTree) : FileTree :=
  dirs.foldr (fun dir e => .directory [(dir, e)]) e

theorem isTree_below {dirs : List FileName} {e : FileTree}
    (hdirs : ∀ dir ∈ dirs, (dir.text?.all fun text => Path.IsName text) = true) (he : e.IsTree) :
    (below dirs e).IsTree := by
  induction dirs with
  | nil => exact he
  | cons dir dirs ih =>
    rw [List.forall_mem_cons] at hdirs
    refine isTree_directory (by simp) (by simpa using hdirs.1) fun entry hentry => ?_
    cases List.mem_singleton.1 hentry
    exact ih hdirs.2

/-- A file as deep as a search goes and one below it. -/
def deep : FileTree :=
  .directory [(.ofText "deep.ir.json", .file),
    (.ofText "d", .directory [(.ofText "deeper.ir.json", .file)])]

/--
Files that a search finds, one of them hidden, and others that it does not: in a hidden directory,
too deep, not regular, and with a name that is no text.
-/
def layered : List (FileName × FileTree) :=
  [(.ofText "d", below (List.replicate 6 (.ofText "d")) deep),
    (.ofText ".cache", .directory [(.ofText "stale.ir.json", .file)]),
    (.ofText ".b.ir.json", .file),
    (.ofText "pipe.ir.json", .other),
    (⟨0xff :: (FileName.ofText ".ir.json").bytes⟩, .file),
    (.ofText "a.cle.json", .file)]

theorem isTree_layered : (FileTree.directory layered).IsTree := by
  have hdeep : deep.IsTree := by
    refine isTree_directory (by decide) (by decide +kernel) ?_
    simpa using ⟨.file, isTree_directory (by simp) (by decide +kernel) (by simpa using .file)⟩
  have hcache : (FileTree.directory [(.ofText "stale.ir.json", .file)]).IsTree :=
    isTree_directory (by simp) (by decide +kernel) (by simpa using .file)
  refine isTree_directory (by decide) (by decide +kernel) ?_
  simp only [layered, List.forall_mem_cons]
  exact ⟨isTree_below (by decide +kernel) hdeep, hcache, .file, .other, .file, .file, by simp⟩

theorem discover_exact_layered : ∃ paths : InputPaths,
    (FileTree.directory layered).IsTree ∧
    ((FileTree.directory layered).walk (.ofText ".w")).Visits (.ofText ".w") (.directory layered) ∧
    discover ".w" {} (.directory ((FileTree.directory layered).walk (.ofText ".w"))) = .ok paths ∧
    discover ".w" {} (.directory ((FileTree.directory layered.reverse).walk (.ofText "v"))) =
      .ok paths ∧
    (∀ kind, ∃ files, Listed ".w" {} (.directory layered) kind files (paths.get kind)) ∧
    paths = ⟨[".w/a.cle.json"], [".w/.b.ir.json", ".w/d/d/d/d/d/d/d/deep.ir.json"], []⟩ := by
  have hvisits := FileTree.visits_walk isTree_layered (.ofText ".w")
  obtain ⟨hconcludes, hothers⟩ := discover_exact ".w" {} isTree_layered rfl hvisits
  have hreordered : (FileTree.directory layered).Reordered (.directory layered.reverse) :=
    .listing (List.reverse_perm layered).symm
  have hother := hothers _ _ _ hreordered
    (FileTree.visits_walk (hreordered.isTree isTree_layered) (.ofText "v"))
  have hpaths : discover ".w" {} (.directory ((FileTree.directory layered).walk (.ofText ".w"))) =
      .ok ⟨[".w/a.cle.json"], [".w/.b.ir.json", ".w/d/d/d/d/d/d/d/deep.ir.json"], []⟩ := by
    decide +kernel
  rw [hpaths] at hconcludes hother
  cases hconcludes with
  | found hlists _ _ => exact ⟨_, isTree_layered, hvisits, hpaths, hother, hlists, rfl⟩

end Discovery

end Enclave
