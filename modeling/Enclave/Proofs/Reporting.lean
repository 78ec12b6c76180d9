import Enclave.Partition.Explanation
import Enclave.Proofs.Consistency
import Enclave.Proofs.Preparing

/-!
# Enclave.Proofs.Reporting

When an outcome can be written down. Lines are counted from one in a 32-bit word, so a place that
starts on the last line of all has no line number. A partition lists the line of every function and
global, and cannot be reported where one of them is declared there (`topology_isOk_iff`). The
sources of a conflict are written in the shape in which they were read (`toSource_ofSource`), which
is always possible (`explain_isOk`).

* `levelOf?_topology`: a partition gives a function or global the level assigned to its node.
-/

namespace Enclave

/-- The place as it is written after it was read: there is no line zero. -/
def Source.counted : Source → Source
  | .line file number character => .line file (if number = 0 then 1 else number) character
  | source => source

/-- Only a place on line zero is written otherwise than it was read. -/
theorem Source.counted_cases (source : Source) : source.counted = source ∨
    ∃ file character, source = .line file 0 character ∧
      source.counted = .line file 1 character := by
  cases source with
  | range file text => exact .inl rfl
  | line file number character =>
    by_cases hzero : number = 0
    · subst hzero
      exact .inr ⟨file, character, rfl, rfl⟩
    · rw [counted, if_neg hzero]
      exact .inl rfl

namespace Location

theorem lineNumber_isOk_iff {p : Location} :
    (∃ line, p.lineNumber = .ok line) ↔ p.range.start.line.toNat + 1 < word32 := by
  rw [lineNumber, addBelow]
  split
  · rename_i hlt
    exact ⟨fun _ => hlt, fun _ => ⟨_, rfl⟩⟩
  · rename_i hge
    refine ⟨?_, fun hlt => absurd hlt hge⟩
    rintro ⟨line, h⟩
    cases h

theorem positionOf_line_lt (line character : UInt32) :
    (positionOf line character).line.toNat + 1 < word32 := by
  have hword : word32 = 4294967296 := rfl
  have hline := line.toNat_lt
  rw [positionOf]
  split
  · show (0 : UInt32).toNat + 1 < word32
    decide
  · rename_i hne
    have hpos : 1 ≤ line.toNat := by
      rw [Nat.one_le_iff_ne_zero]
      exact fun h => hne (UInt32.toNat_inj.1 h)
    rw [UInt32.toNat_sub_of_le _ _ hpos, UInt32.toNat_one]
    omega

/-- The number of a line that was read; line zero counts as line one. -/
theorem addBelow_positionOf (line character : UInt32) :
    addBelow word32 (positionOf line character).line.toNat 1 =
      .ok (if line = 0 then 1 else line).toNat := by
  rw [addBelow, if_pos (positionOf_line_lt line character), positionOf]
  split
  · rfl
  · rename_i hne
    have hpos : 1 ≤ line.toNat := by
      rw [Nat.one_le_iff_ne_zero]
      exact fun h => hne (UInt32.toNat_inj.1 h)
    rw [UInt32.toNat_sub_of_le _ _ hpos, UInt32.toNat_one, Nat.sub_add_cancel hpos]

/-- A place is written in the shape in which it was read. -/
theorem toSource_ofSource (source : Source) : (ofSource source).toSource = .ok source.counted := by
  cases source with
  | range file range => rfl
  | line file line character =>
    cases character with
    | none =>
      have hline : (ofSource (.line file line none)).lineNumber = _ := addBelow_positionOf line 0
      rw [toSource, hline]
      show Except.ok (Source.line file (.ofNat _) none) = _
      rw [UInt32.ofNat_toNat, Source.counted]
    | some character =>
      have hline : (ofSource (.line file line (some character))).lineNumber = _ :=
        addBelow_positionOf line character
      rw [toSource, hline]
      show Except.ok (Source.line file (.ofNat _) (some character)) = _
      rw [UInt32.ofNat_toNat, Source.counted]

end Location

def Node.Numbered (n : Node) : Prop :=
  ∀ place, n.location = some place → place.range.start.line.toNat + 1 < word32

instance (n : Node) : Decidable n.Numbered :=
  inferInstanceAs (Decidable (∀ place ∈ n.location, place.range.start.line.toNat + 1 < word32))

namespace Assignment

variable {g : Graph} {l : Lattice} {A : Assignment}

theorem lineOf_isOk_iff {n : Node} : (∃ line, lineOf n = .ok line) ↔ n.Numbered := by
  rw [lineOf, Node.Numbered]
  cases n.location with
  | none => exact ⟨fun _ place h => absurd h (by simp), fun _ => ⟨"", rfl⟩⟩
  | some place =>
    simp only [Option.some.injEq, forall_eq', ← Location.lineNumber_isOk_iff]
    constructor
    · rintro ⟨line, h⟩
      obtain ⟨number, hnumber, -⟩ := bind_eq_ok.1 h
      exact ⟨number, hnumber⟩
    · rintro ⟨number, hnumber⟩
      exact ⟨toString number, by rw [hnumber]; rfl⟩

theorem placement_isOk_iff {entry : Node × Level} :
    (∃ placed, placement l entry = .ok placed) ↔ entry.1.Numbered := by
  rw [← lineOf_isOk_iff]
  constructor
  · rintro ⟨placed, h⟩
    obtain ⟨line, hline, -⟩ := bind_eq_ok.1 h
    exact ⟨line, hline⟩
  · rintro ⟨line, hline⟩
    exact ⟨⟨entry.1.name, l.name entry.2, line⟩, by rw [placement, hline]; rfl⟩

theorem mem_entries {n : Node} {a : Level} {kind : NodeKind} :
    (n, a) ∈ (g.nodes.toList.zip A.levels).filter (·.1.kind == kind) ↔
      ∃ v : NodeId, g.nodes[v]? = some n ∧ n.kind = kind ∧ A.level? v = some a := by
  rw [List.mem_filter, List.mem_iff_getElem?, beq_iff_eq]
  simp only [List.getElem?_zip_eq_some, Array.getElem?_toList, level?]
  grind

theorem placements_isOk_iff (hA : A.levels.length = g.nodes.size) {kind : NodeKind} :
    (∃ placed, A.placements g l kind = .ok placed) ↔
      ∀ n ∈ g.nodes.toList, n.kind = kind → n.Numbered := by
  have hmap : (∃ placed, A.placements g l kind = .ok placed) ↔
      ∃ placed, ((g.nodes.toList.zip A.levels).filter (·.1.kind == kind)).mapM (placement l) =
        .ok placed := by
    constructor
    · rintro ⟨placed, h⟩
      obtain ⟨unsorted, hunsorted, -⟩ := bind_eq_ok.1 h
      exact ⟨unsorted, hunsorted⟩
    · rintro ⟨unsorted, h⟩
      exact ⟨sortOn (·.name) unsorted, by rw [placements, h]; rfl⟩
  rw [hmap, mapM_isOk_iff]
  constructor
  · intro h n hn hkind
    obtain ⟨v, hv⟩ := Array.mem_iff_getElem?.1 (Array.mem_toList_iff.1 hn)
    have hlt : v < A.levels.length := hA ▸ (Array.getElem?_eq_some_iff.1 hv).1
    exact placement_isOk_iff.1
      (h _ (mem_entries.2 ⟨v, hv, hkind, List.getElem?_eq_getElem hlt⟩))
  · rintro h ⟨n, a⟩ hentry
    obtain ⟨v, hv, hkind, -⟩ := mem_entries.1 hentry
    exact placement_isOk_iff.2 (h n (Array.mem_toList_iff.2 (Array.mem_of_getElem? hv)) hkind)

theorem topology_isOk_iff (hA : A.levels.length = g.nodes.size) {sourcePath : String} :
    (∃ t, A.topology g l sourcePath = .ok t) ↔
      ∀ n ∈ g.nodes.toList, n.kind ≠ .callSite → n.Numbered := by
  have hboth : (∃ t, A.topology g l sourcePath = .ok t) ↔
      (∃ placed, A.placements g l .function = .ok placed) ∧
        ∃ placed, A.placements g l .global = .ok placed := by
    constructor
    · rintro ⟨t, h⟩
      obtain ⟨functions, hfunctions, h⟩ := bind_eq_ok.1 h
      obtain ⟨globals, hglobals, -⟩ := bind_eq_ok.1 h
      exact ⟨⟨functions, hfunctions⟩, globals, hglobals⟩
    · rintro ⟨⟨functions, hfunctions⟩, globals, hglobals⟩
      rw [topology, hfunctions, hglobals]
      exact ⟨_, rfl⟩
  rw [hboth, placements_isOk_iff hA, placements_isOk_iff hA, ← forall₂_and]
  refine forall₂_congr fun n _ => ?_
  cases n.kind <;> simp

/-- The function or global of this name has the level of this name. -/
def Places (A : Assignment) (g : Graph) (l : Lattice) (name level : String) : Prop :=
  ∃ (v : NodeId) (n : Node) (a : Level), g.nodes[v]? = some n ∧ n.name = name ∧
    n.kind ≠ .callSite ∧ A.level? v = some a ∧ l.name a = level

theorem name_level_of_placement {entry : Node × Level} {p : Placement}
    (h : placement l entry = .ok p) : p.name = entry.1.name ∧ p.level = l.name entry.2 := by
  obtain ⟨line, -, h⟩ := bind_eq_ok.1 h
  cases h
  exact ⟨rfl, rfl⟩

theorem mem_placements {placed : List Placement} {kind : NodeKind} {name level : String}
    (h : A.placements g l kind = .ok placed) :
    (∃ p ∈ placed, p.name = name ∧ p.level = level) ↔
      ∃ (v : NodeId) (n : Node) (a : Level), g.nodes[v]? = some n ∧ n.name = name ∧
        n.kind = kind ∧ A.level? v = some a ∧ l.name a = level := by
  obtain ⟨unsorted, hunsorted, h⟩ := bind_eq_ok.1 h
  cases h
  simp only [(sortOn_perm _ unsorted).mem_iff]
  constructor
  · rintro ⟨p, hp, rfl, rfl⟩
    obtain ⟨⟨n, a⟩, hentry, hplaced⟩ := exists_of_mem_mapM hunsorted p hp
    obtain ⟨v, hn, hkind, ha⟩ := mem_entries.1 hentry
    obtain ⟨hname, hlevel⟩ := name_level_of_placement hplaced
    exact ⟨v, n, a, hn, hname.symm, hkind, ha, hlevel.symm⟩
  · rintro ⟨v, n, a, hn, rfl, hkind, ha, rfl⟩
    obtain ⟨p, hp, hplaced⟩ := exists_mem_of_mapM hunsorted (mem_entries.2 ⟨v, hn, hkind, ha⟩)
    exact ⟨p, hp, name_level_of_placement hplaced⟩

theorem mem_topology {t : Topology} {sourcePath name level : String}
    (h : A.topology g l sourcePath = .ok t) :
    (∃ p ∈ t.functions ++ t.globals, p.name = name ∧ p.level = level) ↔
      A.Places g l name level := by
  obtain ⟨functions, hfunctions, h⟩ := bind_eq_ok.1 h
  obtain ⟨globals, hglobals, h⟩ := bind_eq_ok.1 h
  cases h
  simp only [List.mem_append, or_and_right, exists_or, mem_placements hfunctions,
    mem_placements hglobals]
  constructor
  · rintro (⟨v, n, a, hn, hname, hkind, ha⟩ | ⟨v, n, a, hn, hname, hkind, ha⟩) <;>
      exact ⟨v, n, a, hn, hname, by rw [hkind]; decide, ha⟩
  · rintro ⟨v, n, a, hn, hname, hkind, ha⟩
    cases hk : n.kind with
    | function => exact .inl ⟨v, n, a, hn, hname, hk, ha⟩
    | global => exact .inr ⟨v, n, a, hn, hname, hk, ha⟩
    | callSite => exact absurd hk hkind

theorem mem_defaulted_topology {t : Topology} {sourcePath name : String}
    (h : A.topology g l sourcePath = .ok t) :
    name ∈ t.defaulted ↔ ∃ v ∈ A.defaulted, ∃ n, g.nodes[v]? = some n ∧ n.name = name ∧
      n.kind ≠ .callSite := by
  obtain ⟨functions, -, h⟩ := bind_eq_ok.1 h
  obtain ⟨globals, -, h⟩ := bind_eq_ok.1 h
  cases h
  simp only [(sortOn_perm _ _).mem_iff, List.mem_map, List.mem_filter, List.mem_filterMap,
    bne_iff_ne]
  constructor
  · rintro ⟨n, ⟨⟨v, hv, hn⟩, hkind⟩, hname⟩
    exact ⟨v, hv, n, hn, hname, hkind⟩
  · rintro ⟨v, hv, n, hn, hname, hkind⟩
    exact ⟨n, ⟨⟨v, hv, hn⟩, hkind⟩, hname⟩

theorem levelOf?_topology {t : Topology} {sourcePath name level : String}
    (hdistinct : ∀ (u v : NodeId) (m n : Node), g.nodes[u]? = some m → g.nodes[v]? = some n →
      m.name = n.name → u = v)
    (h : A.topology g l sourcePath = .ok t) :
    t.levelOf? name = some level ↔ A.Places g l name level := by
  rw [← mem_topology h, Topology.levelOf?, Option.map_eq_some_iff]
  constructor
  · rintro ⟨p, hp, rfl⟩
    exact ⟨p, List.mem_of_find?_eq_some hp, by simpa using List.find?_some hp, rfl⟩
  · rintro ⟨p, hp, rfl, rfl⟩
    obtain ⟨q, hq⟩ : ∃ q, (t.functions ++ t.globals).find? (·.name == p.name) = some q :=
      Option.isSome_iff_exists.1 (List.find?_isSome.2 ⟨p, hp, by simp⟩)
    refine ⟨q, hq, ?_⟩
    -- both are placed at the one node of the name
    obtain ⟨u, m, b, hm, hmname, -, hb, hlevel⟩ := (mem_topology h).1
      ⟨q, List.mem_of_find?_eq_some hq, by simpa using List.find?_some hq, rfl⟩
    obtain ⟨v, n, a, hn, hnname, -, ha, hlevel'⟩ := (mem_topology h).1 ⟨p, hp, rfl, rfl⟩
    cases hdistinct u v m n hm hn (hmname.trans hnname.symm)
    cases ha.symm.trans hb
    exact hlevel.symm.trans hlevel'

end Assignment

namespace Explanation

variable {g : Graph} {l : Lattice} {s : Solution}

theorem sources_isOk (hplaced : ∀ (v : NodeId) (n : Node) place, g.nodes[v]? = some n →
      n.location = some place → ∃ source, place = .ofSource source)
    (sourcePath : String) (nodes : List NodeId) :
    ∃ found, sources g sourcePath nodes = .ok found := by
  have hmap : ∃ found, (nodes.filterMap fun v => g.nodes[v]?.bind (·.location)).mapM (·.toSource) =
      .ok found := by
    refine mapM_isOk_iff.2 fun place hplace => ?_
    obtain ⟨v, -, hv⟩ := List.mem_filterMap.1 hplace
    obtain ⟨n, hn, hlocation⟩ := Option.bind_eq_some_iff.1 hv
    obtain ⟨source, rfl⟩ := hplaced v n place hn hlocation
    exact ⟨source.counted, Location.toSource_ofSource source⟩
  obtain ⟨found, hfound⟩ := hmap
  rw [sources, hfound]
  cases found <;> exact ⟨_, rfl⟩

theorem explain_isOk (hplaced : ∀ (v : NodeId) (n : Node) place, g.nodes[v]? = some n →
      n.location = some place → ∃ source, place = .ofSource source) (sourcePath : String) :
    ∃ conflicts, explain g l s sourcePath = .ok conflicts ∧
      conflicts.length = s.witnesses.length := by
  have hmap : ∃ conflicts, s.witnesses.mapM (conflict g l s sourcePath) = .ok conflicts := by
    refine mapM_isOk_iff.2 fun w _ => ?_
    obtain ⟨found, hfound⟩ := sources_isOk hplaced sourcePath
      (outward w.meeting (tracePath g s w.incoming w.meeting) (tracePath g s w.existing w.meeting))
    rw [conflict]
    simp only [hfound]
    exact ⟨_, rfl⟩
  obtain ⟨conflicts, hconflicts⟩ := hmap
  refine ⟨sortBy comesBefore conflicts, by rw [explain, hconflicts]; rfl, ?_⟩
  rw [(sortBy_perm _ _).length_eq, (getElem?_of_mapM hconflicts).1]

end Explanation

end Enclave
