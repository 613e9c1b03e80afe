import SiStultum.Library.Counting
import SiStultum.PageMap.Refinement

/-!
# The tables form a tree and none is leaked

`TableAt` walks the memory itself: a table is at a path of indices when following the present
entries on that path from the root leads to it. `walk_table` says that the walk reads the abstract
tree, so its paths and entries are those of the memory.

`Grown` adds to `Represents` the set of paths that have a table below the root, one for each
frame requested. Each level of a call inserts its path into the set, whether it creates a table or
finds one, so that the set after a run depends on the addresses mapped only.
`page_tables_form_tree` is the result for whole runs.
-/

namespace SiStultum

/-- The table that a path of indices leads to, by the entries in memory. -/
def walkTables (mem : ByteMemory) (root : BitVec 64) (path : List (BitVec 64)) :
    Option (BitVec 64) :=
  path.foldlM (pmmFollow mem) root

variable {σ : Type*}

/-- `table` is reached from the root table along a path. Tables are at most three levels below the
root. -/
structure TableAt (s : PmmState σ) (path : List (BitVec 64)) (table : BitVec 64) : Prop where
  levels : path.length ≤ 3
  indices : ∀ index ∈ path, index.toNat < 512
  walk : walkTables s.mem s.pml4 path = some table

/-- An entry of a table of the first three levels, the table being at `path`. -/
structure EntryAt (s : PmmState σ) (path : List (BitVec 64)) (table index : BitVec 64) : Prop where
  table_at : TableAt s path table
  nonleaf : path.length < 3
  index_lt : index.toNat < 512

/-- Every frame requested is what exactly one entry, of a table one level up, points to; no table
is reached along two paths; and a present entry has the flags `P` and `RW` and no others. -/
structure TablesFormTree (s : PmmState σ) : Prop where
  parent : ∀ frame ∈ s.frames, ∃! place : BitVec 64 × BitVec 64,
    ∃ path, EntryAt s path place.1 place.2 ∧ pmmFollow s.mem place.1 place.2 = some frame ∧
      TableAt s (path ++ [place.2]) frame
  unique_path : ∀ path other table, TableAt s path table → TableAt s other table → path = other
  flags : ∀ path table index, EntryAt s path table index →
    pmmFlagGet (tableEntry s.mem table index) pdeP = true →
    tableEntry s.mem table index &&& 0xfff0000000000fff#64 = (pdeP ||| pdeRW).setWidth 64

/-- The address that an operation maps. -/
def PmmOp.vaddr : PmmOp σ → Option (BitVec 64)
  | .map vaddr _ => some vaddr
  | .elsewhere _ _ => none

/-- The addresses mapped by a run. -/
def mappedAddresses (ops : List (PmmOp σ)) : List (BitVec 64) :=
  ops.filterMap PmmOp.vaddr

/-- The number of different values of the bits from `shift` to 47. -/
def distinctPrefixes (shift : Nat) (addrs : List (BitVec 64)) : Nat :=
  (addrs.map fun vaddr => vaddr.toNat % 2 ^ 48 / 2 ^ shift).toFinset.card

/-! ## The walk reads the tree -/

variable {request : σ → BitVec 64 × σ} {s : PmmState σ} {tree : PageTree}
  {table index : BitVec 64} {path : List (BitVec 64)}

/-- A walk and one step more. -/
theorem walk_tables_concat (mem : ByteMemory) (root : BitVec 64) (path : List (BitVec 64))
    (index : BitVec 64) :
    walkTables mem root (path ++ [index]) =
      (walkTables mem root path).bind fun table => pmmFollow mem table index := by
  simp [walkTables, List.foldlM_append, Option.bind_eq_bind]

/-- Down to the third level, the memory has a table at a path exactly when the tree has. -/
theorem walk_table (h : Represents s tree) (hlen : path.length ≤ 3)
    (hindices : ∀ index ∈ path, index.toNat < 512) :
    walkTables s.mem s.pml4 path = tree.table path := by
  induction path using List.reverseRecOn with
  | nil => exact h.root.symm
  | append_singleton front last ih =>
      rw [List.length_append, List.length_singleton] at hlen
      have hfront := ih (by omega) fun index hmem => hindices index (by simp [hmem])
      rw [walk_tables_concat, hfront]
      cases hparent : tree.table front with
      | none => exact (h.absent_below hparent last).1.symm
      | some parent => exact follow_inner h hparent (by omega) (hindices last (by simp))

/-- A table that a walk reaches belongs to the tree. -/
theorem TableAt.in_tree (h : Represents s tree) (hat : TableAt s path table) :
    tree.table path = some table := by
  rw [← walk_table h hat.levels hat.indices, hat.walk]

/-- An entry of the first three levels is the entry for the child in the tree. -/
theorem EntryAt.entry (h : Represents s tree) (hat : EntryAt s path table index) :
    tableEntry s.mem table index = entryOf (tree.table (path ++ [index])) :=
  h.inner path table index (hat.table_at.in_tree h) hat.nonleaf hat.index_lt

/-- An entry that a walk reaches leads where the tree says. -/
theorem EntryAt.follow (h : Represents s tree) (hat : EntryAt s path table index) :
    pmmFollow s.mem table index = tree.table (path ++ [index]) :=
  follow_inner h (hat.table_at.in_tree h) hat.nonleaf hat.index_lt

/-- What an entry points to is a table one level down. -/
theorem EntryAt.child (hat : EntryAt s path table index) {child : BitVec 64}
    (hfollow : pmmFollow s.mem table index = some child) : TableAt s (path ++ [index]) child := by
  have hlen := hat.nonleaf
  refine ⟨?_, ?_, ?_⟩
  · rw [List.length_append, List.length_singleton]
    omega
  · intro position hmem
    rcases List.mem_append.mp hmem with hfront | hlast
    · exact hat.table_at.indices position hfront
    · rw [List.mem_singleton.mp hlast]
      exact hat.index_lt
  · rw [walk_tables_concat, hat.table_at.walk, Option.bind_some, hfollow]

/-! ## The paths that have a table -/

/-- The tables below the root are at `paths`, one frame for each. -/
structure Grown (s : PmmState σ) (tree : PageTree) (paths : Finset (List (BitVec 64))) : Prop
    extends Represents s tree where
  domain : ∀ path, path ≠ [] → ((tree.table path).isSome ↔ path ∈ paths)
  onto : ∀ frame ∈ s.frames, ∃ path index, tree.table (path ++ [index]) = some frame
  count : s.frames.length = paths.card

variable {paths : Finset (List (BitVec 64))}

/-- Linking one more frame adds its path. -/
theorem Grown.link (h : Grown s tree paths) (habsent : tree.table (path ++ [index]) = none)
    {after : PmmState σ} {frame : BitVec 64} (hframes : after.frames = s.frames ++ [frame])
    (hrep : Represents after (tree.link (path ++ [index]) frame)) :
    Grown after (tree.link (path ++ [index]) frame) (insert (path ++ [index]) paths) := by
  have hnew : path ++ [index] ∉ paths := by
    rw [← h.domain _ (by simp), habsent]
    simp
  refine { hrep with domain := ?_, onto := ?_, count := ?_ }
  · intro place hplace
    rw [link_table, Finset.mem_insert]
    split
    · next hsame => simp [hsame]
    · next hdiff => rw [h.domain place hplace, or_iff_right hdiff]
  · intro child hchild
    rw [hframes] at hchild
    rcases List.mem_append.mp hchild with hold | hlast
    · obtain ⟨place, position, htable⟩ := h.onto child hold
      exact ⟨place, position, extends_link habsent frame _ _ htable⟩
    · rw [List.mem_singleton.mp hlast]
      exact ⟨path, index, by rw [link_table, if_pos rfl]⟩
  · rw [hframes, List.length_append, List.length_singleton, h.count,
      Finset.card_insert_of_notMem hnew]

/-- One level inserts the path of its table, created or found. -/
theorem grown_descend (h : Grown s tree paths) (htable : tree.table path = some table)
    (hlen : path.length < 3) (hindex : index.toNat < 512)
    (hfresh : FreshFrames s.pml4 (pmmDescend request s table index).2.frames) :
    ∃ larger, Grown (pmmDescend request s table index).2 larger (insert (path ++ [index]) paths) ∧
      larger.table (path ++ [index]) = some (pmmDescend request s table index).1 := by
  obtain ⟨child, hchild, hdescend⟩ | ⟨habsent, hframes, hlinked⟩ :=
    descend_tree h.toRepresents htable hlen hindex hfresh
  · have hmem : path ++ [index] ∈ paths := by
      rw [← h.domain _ (by simp), hchild, Option.isSome_some]
    rw [hdescend, Finset.insert_eq_of_mem hmem]
    exact ⟨tree, h, hchild⟩
  · exact ⟨_, h.link habsent hframes hlinked, by rw [link_table, if_pos rfl]⟩

/-- The paths after an operation. -/
def growPaths (paths : Finset (List (BitVec 64))) : PmmOp σ → Finset (List (BitVec 64))
  | .map vaddr _ => insert ((pagePath vaddr).take 3) (insert ((pagePath vaddr).take 2)
      (insert ((pagePath vaddr).take 1) paths))
  | .elsewhere _ _ => paths

/-- A call inserts the paths of its three tables. -/
theorem grown_map (h : Grown s tree paths) {vaddr paddr : BitVec 64}
    (hfresh : FreshFrames s.pml4 (pmmMapMemory request s vaddr paddr).frames) :
    ∃ larger, Grown (pmmMapMemory request s vaddr paddr) larger
      (growPaths paths (PmmOp.map vaddr paddr : PmmOp σ)) := by
  obtain ⟨hfreshpdp, hfreshpd, hfreshpt⟩ := fresh_levels hfresh
  obtain ⟨tree1, hgrown1, htable1⟩ :=
    grown_descend h h.root (by decide) (pmm_index_lt vaddr 39) hfreshpdp
  obtain ⟨tree2, hgrown2, htable2⟩ :=
    grown_descend hgrown1 htable1 (by simp) (pmm_index_lt vaddr 30) hfreshpd
  obtain ⟨tree3, hgrown3, htable3⟩ :=
    grown_descend hgrown2 htable2 (by simp) (pmm_index_lt vaddr 21) hfreshpt
  have hrep := set_leaf_represents hgrown3.toRepresents htable3 (by simp) (pmm_index_lt vaddr 12)
    paddr
  have hframes := frames_set_leaf (pmmPt request s vaddr).2 (pmmPt request s vaddr).1
    (pmmIndex vaddr 12) paddr
  rw [map_eq_set_leaf]
  refine ⟨tree3.setLeaf (pagePath vaddr) paddr,
    { hrep with domain := hgrown3.domain, onto := ?_, count := ?_ }⟩
  · intro frame hframe
    rw [hframes] at hframe
    exact hgrown3.onto frame hframe
  · rw [hframes]
    exact hgrown3.count

/-- A mapping grows the tree by the paths of its address. -/
theorem grown_step (s : PmmState σ) (paths : Finset (List (BitVec 64))) (op : PmmOp σ)
    (h : ∃ tree, Grown s tree paths) (hadmits : PmmAdmits request s op) :
    ∃ tree, Grown (pmmStep request s op) tree (growPaths paths op) := by
  obtain ⟨tree, hgrown⟩ := h
  cases op with
  | map vaddr paddr => exact grown_map hgrown hadmits
  | elsewhere mem ppa =>
      have hrep := represents_elsewhere hgrown.toRepresents hadmits
      exact ⟨tree, { hrep with
        domain := hgrown.domain, onto := hgrown.onto, count := hgrown.count }⟩

/-- The tables after any run are at the paths that its operations insert. -/
theorem grown_reach {mem : ByteMemory} {ppa : σ} {pml4 : BitVec 64} (haligned : PageAligned pml4)
    (hzero : ∀ index, index.toNat < 512 → tableEntry mem pml4 index = 0) {ops : List (PmmOp σ)}
    (hadmits : Runs.Meets (pmmStep request) (PmmAdmits request)
      (pmmInitPml4 (pmmBoot mem ppa) pml4) ops) :
    ∃ tree, Grown (pmmReach request mem ppa pml4 ops) tree (Runs.run growPaths ∅ ops) := by
  have hframes : (pmmInitPml4 (pmmBoot mem ppa) pml4).frames = [] := rfl
  have hnone : FreshFrames pml4 (pmmBoot mem ppa).frames := by
    constructor <;> simp [PmmState.frames, pmmBoot]
  have hrep : Represents (pmmInitPml4 (pmmBoot mem ppa) pml4) (PageTree.root pml4) :=
    init_pml4_represents haligned hzero hnone
  have hinit : Grown (pmmInitPml4 (pmmBoot mem ppa) pml4) (PageTree.root pml4) ∅ := by
    refine { hrep with domain := ?_, onto := ?_, count := ?_ }
    · intro place hplace
      simp [PageTree.root, hplace]
    · intro frame hframe
      rw [hframes] at hframe
      cases hframe
    · rw [hframes, List.length_nil, Finset.card_empty]
  exact Runs.run_simulates (fun s paths => ∃ tree, Grown s tree paths) (PmmAdmits request)
    growPaths grown_step ⟨_, hinit⟩ hadmits

/-! ## Counting the paths -/

/-- The paths of the tables at one level. -/
def levelPaths (level : Nat) (ops : List (PmmOp σ)) : Finset (List (BitVec 64)) :=
  ((mappedAddresses ops).map fun vaddr => (pagePath vaddr).take level).toFinset

/-- The paths after a run are those of the mapped addresses at the three levels. -/
theorem mem_run_grow_paths (paths : Finset (List (BitVec 64))) (ops : List (PmmOp σ))
    (path : List (BitVec 64)) :
    path ∈ Runs.run growPaths paths ops ↔
      path ∈ levelPaths 1 ops ∪ levelPaths 2 ops ∪ levelPaths 3 ops ∪ paths := by
  induction ops generalizing paths with
  | nil => simp [levelPaths, mappedAddresses]
  | cons op ops ih =>
      rw [Runs.run_cons, ih]
      cases op with
      | map vaddr paddr =>
          simp only [growPaths, levelPaths, mappedAddresses, List.filterMap_cons, PmmOp.vaddr,
            List.map_cons, List.toFinset_cons, Finset.mem_union, Finset.mem_insert]
          tauto
      | elsewhere mem ppa =>
          simp only [growPaths, levelPaths, mappedAddresses, List.filterMap_cons, PmmOp.vaddr]

/-- The paths of a run are those of all its addresses. -/
theorem run_grow_paths (ops : List (PmmOp σ)) :
    Runs.run growPaths ∅ ops = levelPaths 1 ops ∪ levelPaths 2 ops ∪ levelPaths 3 ops := by
  ext path
  rw [mem_run_grow_paths, Finset.union_empty]

/-- The paths of a level have its length. -/
theorem length_of_mem_level_paths {level : Nat} (hlevel : level ≤ 3) {ops : List (PmmOp σ)}
    (hmem : path ∈ levelPaths level ops) : path.length = level := by
  rw [levelPaths, List.mem_toFinset] at hmem
  obtain ⟨vaddr, -, rfl⟩ := List.mem_map.mp hmem
  rw [List.length_take]
  exact Nat.min_eq_left (Nat.le_trans hlevel (by simp [pagePath]))

/-- Paths of different levels are different, so the count is a sum. -/
theorem card_run_grow_paths (ops : List (PmmOp σ)) :
    (Runs.run growPaths ∅ ops).card =
      (levelPaths 1 ops).card + (levelPaths 2 ops).card + (levelPaths 3 ops).card := by
  rw [run_grow_paths, Finset.card_union_of_disjoint, Finset.card_union_of_disjoint]
  · rw [Finset.disjoint_left]
    intro path hfirst hsecond
    have hlen := length_of_mem_level_paths (by decide) hfirst
    rw [length_of_mem_level_paths (by decide) hsecond] at hlen
    omega
  · rw [Finset.disjoint_left]
    intro path hupper hthird
    have hlen := length_of_mem_level_paths (by decide) hthird
    rcases Finset.mem_union.mp hupper with hfirst | hsecond
    · rw [length_of_mem_level_paths (by decide) hfirst] at hlen
      omega
    · rw [length_of_mem_level_paths (by decide) hsecond] at hlen
      omega

/-- Two addresses have the same path down to a level if they agree on the bits above it. -/
theorem take_page_path_eq_iff {level : Nat} (hpos : 0 < level) (hlevel : level ≤ 3)
    (vaddr other : BitVec 64) :
    (pagePath vaddr).take level = (pagePath other).take level ↔
      vaddr.toNat % 2 ^ 48 / 2 ^ (48 - 9 * level) =
        other.toNat % 2 ^ 48 / 2 ^ (48 - 9 * level) := by
  have hcases : level = 1 ∨ level = 2 ∨ level = 3 := by omega
  obtain rfl | rfl | rfl := hcases
  all_goals
    simp only [pagePath, List.take_zero, List.take_succ_cons, List.cons.injEq, and_true,
      ← BitVec.toNat_inj, pmm_index_to_nat, Nat.reducePow, Nat.reduceMul, Nat.reduceSub]
    omega

/-- A level has as many paths as there are prefixes of the mapped addresses. -/
theorem card_level_paths {level : Nat} (hpos : 0 < level) (hlevel : level ≤ 3)
    (ops : List (PmmOp σ)) :
    (levelPaths level ops).card = distinctPrefixes (48 - 9 * level) (mappedAddresses ops) :=
  Counting.card_values_congr (take_page_path_eq_iff hpos hlevel) _

/-! ## The tree of tables -/

/-- A present entry of the first three levels has the flags `P` and `RW` only. -/
theorem entry_to_flags (frame : BitVec 64) :
    entryTo frame &&& 0xfff0000000000fff#64 = (pdeP ||| pdeRW).setWidth 64 := by
  have hflags : (pdeP ||| pdeRW).setWidth 64 = 3#64 := by decide
  rw [hflags]
  apply BitVec.eq_of_getLsbD_eq
  intro i hi
  rw [BitVec.getLsbD_and, entry_to_bit frame hi, frame_field_bit frame hi, flags_mask_bit i hi,
    present_mask_bit i hi]
  by_cases h12 : i < 12
  · simp [h12, Nat.not_le_of_lt h12]
  · have h2 : ¬ i < 2 := by omega
    by_cases h52 : i < 52
    · simp [h12, h2, Nat.not_le_of_lt h52]
    · simp [h2, h52]

/-- Tables at the paths of mapped addresses form a tree. -/
theorem Grown.forms_tree (h : Grown s tree paths)
    (hpaths : ∀ path ∈ paths, path.length ≤ 3 ∧ ∀ index ∈ path, index.toNat < 512) :
    TablesFormTree s := by
  have hrep := h.toRepresents
  constructor
  case parent =>
    intro frame hframe
    obtain ⟨path, index, hchild⟩ := h.onto frame hframe
    obtain ⟨parent, hparent⟩ := Option.isSome_iff_exists.mp (h.table_closed path index frame hchild)
    obtain ⟨hlen, hindices⟩ := hpaths (path ++ [index])
      ((h.domain _ (by simp)).mp (Option.isSome_of_eq_some hchild))
    rw [List.length_append, List.length_singleton] at hlen
    have hfront : ∀ position ∈ path, position.toNat < 512 :=
      fun position hmem => hindices position (by simp [hmem])
    have hentry : EntryAt s path parent index :=
      ⟨⟨by omega, hfront, by rw [walk_table hrep (by omega) hfront, hparent]⟩, by omega,
        hindices index (by simp)⟩
    have hfollow : pmmFollow s.mem parent index = some frame := by
      rw [hentry.follow hrep, hchild]
    refine ⟨(parent, index), ⟨path, hentry, hfollow, hentry.child hfollow⟩, ?_⟩
    -- another entry that points to the frame is at the same path, so it is the same entry
    rintro ⟨table, position⟩ ⟨place, hother, hpoints, -⟩
    rw [hother.follow hrep] at hpoints
    obtain ⟨rfl, rfl⟩ := snoc_inj.mp (h.injective _ _ frame hpoints hchild)
    have htable := hother.table_at.in_tree hrep
    rw [hparent] at htable
    rw [Option.some.inj htable]
  case unique_path =>
    intro path other table hat hother
    exact h.injective path other table (hat.in_tree hrep) (hother.in_tree hrep)
  case flags =>
    intro path table index hat hpresent
    rw [hat.entry hrep] at hpresent ⊢
    cases hchild : tree.table (path ++ [index]) with
    | none =>
        rw [hchild, entryOf, flag_get_zero] at hpresent
        cases hpresent
    | some child => exact entry_to_flags child

/-- From a zeroed root table, and with fresh frames from the allocator, the frames requested by any
run of calls form a tree of tables with one entry for each frame. There is one frame for each
different value of the bits from 39 on, of the bits from 30 on and of the bits from 21 on, all up to
bit 47, of the addresses mapped. -/
theorem page_tables_form_tree (request : σ → BitVec 64 × σ) {mem : ByteMemory} {ppa : σ}
    {pml4 : BitVec 64} (haligned : PageAligned pml4)
    (hzero : ∀ index, index.toNat < 512 → tableEntry mem pml4 index = 0) {ops : List (PmmOp σ)}
    (hadmits : Runs.Meets (pmmStep request) (PmmAdmits request)
      (pmmInitPml4 (pmmBoot mem ppa) pml4) ops) :
    TablesFormTree (pmmReach request mem ppa pml4 ops) ∧
      (pmmReach request mem ppa pml4 ops).frames.length =
        distinctPrefixes 39 (mappedAddresses ops) + distinctPrefixes 30 (mappedAddresses ops) +
          distinctPrefixes 21 (mappedAddresses ops) := by
  obtain ⟨tree, hgrown⟩ := grown_reach haligned hzero hadmits
  refine ⟨hgrown.forms_tree ?_, ?_⟩
  · intro path hmem
    rw [run_grow_paths, Finset.mem_union, Finset.mem_union] at hmem
    have hlevel : ∃ level ≤ 3, path ∈ levelPaths level ops := by
      rcases hmem with (hfirst | hsecond) | hthird
      · exact ⟨1, by decide, hfirst⟩
      · exact ⟨2, by decide, hsecond⟩
      · exact ⟨3, by decide, hthird⟩
    obtain ⟨level, hle, hpath⟩ := hlevel
    refine ⟨length_of_mem_level_paths hle hpath ▸ hle, ?_⟩
    rw [levelPaths, List.mem_toFinset] at hpath
    obtain ⟨vaddr, -, rfl⟩ := List.mem_map.mp hpath
    intro index hindex
    have hmem := List.mem_of_mem_take hindex
    simp only [pagePath, List.mem_cons, List.not_mem_nil, or_false] at hmem
    obtain rfl | rfl | rfl | rfl := hmem
    all_goals exact pmm_index_lt vaddr _
  · rw [hgrown.count, card_run_grow_paths, card_level_paths (by decide) (by decide),
      card_level_paths (by decide) (by decide), card_level_paths (by decide) (by decide)]

/-- Three addresses in two page directories need five tables. -/
theorem page_tables_three_pages :
    TablesFormTree (pmmReach bumpRequest (fun _ => 0) 2 0x1000
        [.map 0x600000 0x80000, .map 0x601000 0x81000, .map 0x80000000 0x82000]) ∧
      (pmmReach bumpRequest (fun _ => 0) 2 0x1000
        [.map 0x600000 0x80000, .map 0x601000 0x81000, .map 0x80000000 0x82000]).frames.length =
          5 := by
  have h := page_tables_form_tree bumpRequest (by decide)
    (fun index _ => table_entry_zeroed 0x1000 index)
    (bump_meets [(0x600000, 0x80000), (0x601000, 0x81000), (0x80000000, 0x82000)] (by decide))
  exact ⟨h.1, h.2.trans (by decide)⟩

end SiStultum
