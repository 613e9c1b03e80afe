import Mathlib.Logic.Function.Basic
import SiStultum.PageMap.Entries

/-!
# The page tables as a tree

`page_map.c` over a memory, an allocator of any kind that answers `ppa_request`, and the trace
of the calls and writes made so far. `pmmDescend` is one of the three levels of
`pmm_map_memory` at which a missing table is created.

`PageTree` is the abstract view: the frame of the table at every path of indices from the root,
and the frame mapped at every path of four indices. `Represents` relates it to the memory, and
says that no two paths share a table. `descend_represents` and `map_represents` say what one
level and one call do to the tree; `find_represents` says that `pmm_find_paddr` reads it.
-/

namespace SiStultum

/-- The calls and writes of `page_map.c` that leave the module. -/
inductive PmmEvent where
  /-- `ppa_request` returned `frame`. -/
  | request (frame : BitVec 64)
  /-- `ppa_memset` cleared `len` bytes from `dest` on. -/
  | memset (dest len : BitVec 64)
  /-- `table->entries[index] = pde`. -/
  | store (table index : BitVec 64) (pde : PageDirectoryEntry)
  deriving DecidableEq

/-- The frame that a call of `ppa_request` returned. -/
def PmmEvent.answer : PmmEvent → Option (BitVec 64)
  | .request frame => some frame
  | _ => none

/-- The memory, the root table, the state of the allocator and the trace, newest event last. -/
structure PmmState (σ : Type*) where
  mem : ByteMemory
  pml4 : BitVec 64
  ppa : σ
  trace : List PmmEvent

variable {σ : Type*}

/-- The frames that `ppa_request` returned so far. -/
def PmmState.frames (s : PmmState σ) : List (BitVec 64) :=
  s.trace.filterMap PmmEvent.answer

/-- `pmm_init_pml4`. -/
def pmmInitPml4 (s : PmmState σ) (addr : BitVec 64) : PmmState σ :=
  { s with pml4 := addr }

/-- The index of an address in the table of one level. -/
def pmmIndex (vaddr : BitVec 64) (shift : Nat) : BitVec 64 :=
  (vaddr >>> shift) &&& 0x1ff

/-- One of the first three levels of `pmm_map_memory`: the next table, created when the entry is
not present. -/
def pmmDescend (request : σ → BitVec 64 × σ) (s : PmmState σ) (table index : BitVec 64) :
    BitVec 64 × PmmState σ :=
  let pde := tableEntry s.mem table index
  if pmmFlagGet pde pdeP then (pmmAddrGet pde <<< 12, s)
  else
    let (frame, ppa) := request s.ppa
    let linked := pmmFlagSet (pmmAddrSet pde (frame >>> 12)) (pdeP ||| pdeRW) 1
    (frame,
      { s with
        mem := storeEntry (ppaMemset s.mem frame 0 4096) table index linked
        ppa := ppa
        trace := s.trace ++
          [.request frame, .memset frame 4096, .store table index linked] })

/-- The last level of `pmm_map_memory`. -/
def pmmSetLeaf (s : PmmState σ) (table index paddr : BitVec 64) : PmmState σ :=
  let pde := tableEntry s.mem table index
  let mapped := pmmFlagSet (pmmAddrSet pde (paddr >>> 12)) (pdeP ||| pdeRW) 1
  { s with
    mem := storeEntry s.mem table index mapped
    trace := s.trace ++ [.store table index mapped] }

/-- `pmm_map_memory`. -/
def pmmMapMemory (request : σ → BitVec 64 × σ) (s : PmmState σ) (vaddr paddr : BitVec 64) :
    PmmState σ :=
  let (pdp, s) := pmmDescend request s s.pml4 (pmmIndex vaddr 39)
  let (pd, s) := pmmDescend request s pdp (pmmIndex vaddr 30)
  let (pt, s) := pmmDescend request s pd (pmmIndex vaddr 21)
  pmmSetLeaf s pt (pmmIndex vaddr 12) paddr

/-- The first level of a call, from the root table. -/
def pmmPdp (request : σ → BitVec 64 × σ) (s : PmmState σ) (vaddr : BitVec 64) :
    BitVec 64 × PmmState σ :=
  pmmDescend request s s.pml4 (pmmIndex vaddr 39)

/-- The first two levels of a call. -/
def pmmPd (request : σ → BitVec 64 × σ) (s : PmmState σ) (vaddr : BitVec 64) :
    BitVec 64 × PmmState σ :=
  pmmDescend request (pmmPdp request s vaddr).2 (pmmPdp request s vaddr).1 (pmmIndex vaddr 30)

/-- The first three levels of a call. -/
def pmmPt (request : σ → BitVec 64 × σ) (s : PmmState σ) (vaddr : BitVec 64) :
    BitVec 64 × PmmState σ :=
  pmmDescend request (pmmPd request s vaddr).2 (pmmPd request s vaddr).1 (pmmIndex vaddr 21)

/-- One level of `pmm_find_paddr`: what a present entry points to. -/
def pmmFollow (mem : ByteMemory) (table index : BitVec 64) : Option (BitVec 64) :=
  let pde := tableEntry mem table index
  if pmmFlagGet pde pdeP then some (pmmAddrGet pde <<< 12) else none

/-- `pmm_find_paddr`: 0 when some level is not present. -/
def pmmFindPaddr (s : PmmState σ) (vaddr : BitVec 64) : BitVec 64 :=
  let found := do
    let pdp ← pmmFollow s.mem s.pml4 (pmmIndex vaddr 39)
    let pd ← pmmFollow s.mem pdp (pmmIndex vaddr 30)
    let pt ← pmmFollow s.mem pd (pmmIndex vaddr 21)
    pmmFollow s.mem pt (pmmIndex vaddr 12)
  found.getD 0

/-! ## The abstract tree -/

/-- Tables and mapped frames by the indices that lead to them, outermost first. -/
structure PageTree where
  table : List (BitVec 64) → Option (BitVec 64)
  leaf : List (BitVec 64) → Option (BitVec 64)

/-- The tree with a table for one more path. -/
def PageTree.link (tree : PageTree) (path : List (BitVec 64)) (frame : BitVec 64) : PageTree :=
  { tree with table := Function.update tree.table path (some frame) }

/-- The tree that maps one path to a frame. -/
def PageTree.setLeaf (tree : PageTree) (path : List (BitVec 64)) (frame : BitVec 64) : PageTree :=
  { tree with leaf := Function.update tree.leaf path (some frame) }

/-- The tree of a zeroed root table. -/
def PageTree.root (pml4 : BitVec 64) : PageTree where
  table path := if path = [] then some pml4 else none
  leaf _ := none

/-- The tables of one tree are tables of the other. -/
def PageTree.Extends (tree larger : PageTree) : Prop :=
  ∀ path table, tree.table path = some table → larger.table path = some table

/-- The entry for a table or a frame that may be absent. -/
def entryOf : Option (BitVec 64) → PageDirectoryEntry
  | none => 0
  | some frame => entryTo frame

/-- The frames taken from the allocator are pages below 2 ^ 52, all different and none of them
page 0 or the root table. -/
structure FreshFrames (pml4 : BitVec 64) (frames : List (BitVec 64)) : Prop where
  nodup : frames.Nodup
  ne_zero : ∀ frame ∈ frames, frame ≠ 0
  ne_pml4 : ∀ frame ∈ frames, frame ≠ pml4
  aligned : ∀ frame ∈ frames, PageAligned frame
  small : ∀ frame ∈ frames, frame.toNat < 2 ^ 52

/-- The memory holds the tree: every table of the tree has exactly its entries, at three levels of
tables over one level of frames, and different paths have different tables. -/
structure Represents (s : PmmState σ) (tree : PageTree) : Prop where
  root : tree.table [] = some s.pml4
  root_aligned : PageAligned s.pml4
  fresh : FreshFrames s.pml4 s.frames
  taken : ∀ path index table, tree.table (path ++ [index]) = some table → table ∈ s.frames
  injective : ∀ path other table, tree.table path = some table → tree.table other = some table →
    path = other
  table_closed : ∀ path index table, tree.table (path ++ [index]) = some table →
    (tree.table path).isSome
  leaf_closed : ∀ path index frame, tree.leaf (path ++ [index]) = some frame →
    (tree.table path).isSome
  inner : ∀ path table index, tree.table path = some table → path.length < 3 →
    index.toNat < 512 → tableEntry s.mem table index = entryOf (tree.table (path ++ [index]))
  outer : ∀ path table index, tree.table path = some table → path.length = 3 →
    index.toNat < 512 → tableEntry s.mem table index = entryOf (tree.leaf (path ++ [index]))

/-- The path of an address through the four levels. -/
def pagePath (vaddr : BitVec 64) : List (BitVec 64) :=
  [pmmIndex vaddr 39, pmmIndex vaddr 30, pmmIndex vaddr 21, pmmIndex vaddr 12]

/-- The path of the last table on it. -/
def tablePath (vaddr : BitVec 64) : List (BitVec 64) :=
  [pmmIndex vaddr 39, pmmIndex vaddr 30, pmmIndex vaddr 21]

/-- An index as a quotient. -/
theorem pmm_index_to_nat (vaddr : BitVec 64) (shift : Nat) :
    (pmmIndex vaddr shift).toNat = vaddr.toNat / 2 ^ shift % 512 := by
  rw [pmmIndex, BitVec.toNat_and, BitVec.toNat_ushiftRight, Nat.shiftRight_eq_div_pow]
  exact Nat.and_two_pow_sub_one_eq_mod _ 9

/-- An index is smaller than 512. -/
theorem pmm_index_lt (vaddr : BitVec 64) (shift : Nat) : (pmmIndex vaddr shift).toNat < 512 := by
  rw [pmm_index_to_nat]
  exact Nat.mod_lt _ (by omega)

variable {request : σ → BitVec 64 × σ} {s : PmmState σ} {tree : PageTree}
  {table other index position : BitVec 64} {path : List (BitVec 64)}

/-! ## Fresh frames -/

/-- The frames at the beginning are fresh too. -/
theorem FreshFrames.of_append {pml4 : BitVec 64} {frames more : List (BitVec 64)}
    (h : FreshFrames pml4 (frames ++ more)) : FreshFrames pml4 frames := by
  have hmem : ∀ frame ∈ frames, frame ∈ frames ++ more := fun _ => List.mem_append_left more
  obtain ⟨hnodup, hzero, hroot, haligned, hsmall⟩ := h
  exact ⟨(List.nodup_append.mp hnodup).1, fun f hf => hzero f (hmem f hf),
    fun f hf => hroot f (hmem f hf), fun f hf => haligned f (hmem f hf),
    fun f hf => hsmall f (hmem f hf)⟩

/-- Every table of the tree is the root table or was requested. -/
theorem Represents.root_or_taken (h : Represents s tree) (htable : tree.table path = some table) :
    table = s.pml4 ∨ table ∈ s.frames := by
  rcases List.eq_nil_or_concat path with rfl | ⟨front, last, rfl⟩
  · rw [h.root] at htable
    exact Or.inl (Option.some.inj htable).symm
  · rw [List.concat_eq_append] at htable
    exact Or.inr (h.taken front last table htable)

/-- Every table of the tree is a page. -/
theorem Represents.aligned (h : Represents s tree) (htable : tree.table path = some table) :
    PageAligned table := by
  obtain rfl | hmem := h.root_or_taken htable
  · exact h.root_aligned
  · exact h.fresh.aligned table hmem

/-- A table below the root is its own frame field. -/
theorem Represents.frame_field (h : Represents s tree)
    (htable : tree.table (path ++ [index]) = some table) : frameField table = table := by
  have hmem := h.taken path index table htable
  exact frame_field_eq_self (h.fresh.aligned table hmem) (h.fresh.small table hmem)

/-- A frame that is fresh after the frames of the state is the table of no path. -/
theorem Represents.ne_of_fresh (h : Represents s tree) {frame : BitVec 64}
    (hfresh : FreshFrames s.pml4 (s.frames ++ [frame])) (htable : tree.table path = some table) :
    table ≠ frame := by
  obtain hroot | hmem := h.root_or_taken htable
  · rw [hroot]
    exact (hfresh.ne_pml4 frame (by simp)).symm
  · have hdisjoint := (List.nodup_append.mp hfresh.nodup).2.2
    exact hdisjoint table hmem frame (by simp)

/-- A path below a missing table has no table and maps nothing. -/
theorem Represents.absent_below (h : Represents s tree) (habsent : tree.table path = none)
    (index : BitVec 64) :
    tree.table (path ++ [index]) = none ∧ tree.leaf (path ++ [index]) = none := by
  constructor
  · by_contra hsome
    obtain ⟨child, hchild⟩ := Option.ne_none_iff_exists'.mp hsome
    have hparent := h.table_closed path index child hchild
    rw [habsent] at hparent
    cases hparent
  · by_contra hsome
    obtain ⟨child, hchild⟩ := Option.ne_none_iff_exists'.mp hsome
    have hparent := h.leaf_closed path index child hchild
    rw [habsent] at hparent
    cases hparent

/-! ## Creating a table -/

/-- A tree with one more table. -/
theorem link_table (tree : PageTree) (path other : List (BitVec 64)) (frame : BitVec 64) :
    (tree.link path frame).table other = if other = path then some frame else tree.table other :=
  Function.update_apply tree.table path (some frame) other

/-- A tree with one leaf set. -/
theorem set_leaf_leaf (tree : PageTree) (path other : List (BitVec 64)) (frame : BitVec 64) :
    (tree.setLeaf path frame).leaf other = if other = path then some frame else tree.leaf other :=
  Function.update_apply tree.leaf path (some frame) other

/-- Linking a table at a path that had none keeps the others. -/
theorem extends_link (habsent : tree.table path = none) (frame : BitVec 64) :
    tree.Extends (tree.link path frame) := by
  intro other table hother
  have hne : other ≠ path := by
    rintro rfl
    rw [habsent] at hother
    cases hother
  rw [link_table, if_neg hne, hother]

/-- A table stays when the tree grows. -/
theorem PageTree.Extends.isSome {larger : PageTree} (h : tree.Extends larger)
    (hsome : (tree.table path).isSome) : (larger.table path).isSome := by
  obtain ⟨table, htable⟩ := Option.isSome_iff_exists.mp hsome
  rw [h path table htable, Option.isSome_some]

/-- Lists with a last element are the same when both parts are. -/
theorem snoc_inj {α : Type*} {front other : List α} {last tail : α} :
    front ++ [last] = other ++ [tail] ↔ front = other ∧ last = tail := by
  constructor
  · intro h
    obtain ⟨hfront, hlast⟩ := List.append_inj' h rfl
    exact ⟨hfront, List.head_eq_of_cons_eq hlast⟩
  · rintro ⟨rfl, rfl⟩
    rfl

/-- An entry of an old table after a new table has been cleared and linked. -/
theorem linked_entry (h : Represents s tree) (htable : tree.table path = some table)
    (hindex : index.toNat < 512) {frame : BitVec 64}
    (hfresh : FreshFrames s.pml4 (s.frames ++ [frame])) {mem : ByteMemory}
    {pde : PageDirectoryEntry}
    (hmem : mem = storeEntry (ppaMemset s.mem frame 0 4096) table index pde)
    {place : List (BitVec 64)} (hother : tree.table place = some other)
    (hposition : position.toNat < 512) :
    tableEntry mem other position =
      if place = path ∧ position = index then pde else tableEntry s.mem other position := by
  have hframe : PageAligned frame := hfresh.aligned frame (by simp)
  split
  · next hsame =>
      obtain ⟨rfl, rfl⟩ := hsame
      obtain rfl : table = other := Option.some.inj (htable.symm.trans hother)
      rw [hmem, entry_store_same]
  · next hdiff =>
      have hne : table ≠ other ∨ index ≠ position := by
        by_contra hboth
        rw [not_or, not_not, not_not] at hboth
        obtain ⟨rfl, rfl⟩ := hboth
        exact hdiff ⟨h.injective place path table hother htable, rfl⟩
      rw [hmem, entry_store_other (h.aligned htable) (h.aligned hother) hindex hposition hne,
        entry_memset_other hframe (h.aligned hother) hposition (h.ne_of_fresh hfresh hother).symm]

/-- An entry of the new table itself. -/
theorem new_table_entry (h : Represents s tree) (htable : tree.table path = some table)
    (hindex : index.toNat < 512) {frame : BitVec 64}
    (hfresh : FreshFrames s.pml4 (s.frames ++ [frame])) {mem : ByteMemory}
    {pde : PageDirectoryEntry}
    (hmem : mem = storeEntry (ppaMemset s.mem frame 0 4096) table index pde)
    (hposition : position.toNat < 512) : tableEntry mem frame position = 0 := by
  have hframe : PageAligned frame := hfresh.aligned frame (by simp)
  rw [hmem, entry_store_other (h.aligned htable) hframe hindex hposition
    (Or.inl (h.ne_of_fresh hfresh htable)), entry_memset_same hposition]

/-- Clearing a fresh frame and linking it where there was no table. -/
theorem link_represents (h : Represents s tree) (htable : tree.table path = some table)
    (hlen : path.length < 3) (hindex : index.toNat < 512)
    (habsent : tree.table (path ++ [index]) = none) {frame : BitVec 64}
    (hfresh : FreshFrames s.pml4 (s.frames ++ [frame])) {after : PmmState σ}
    (hmem : after.mem = storeEntry (ppaMemset s.mem frame 0 4096) table index (entryTo frame))
    (hpml4 : after.pml4 = s.pml4) (hframes : after.frames = s.frames ++ [frame]) :
    Represents after (tree.link (path ++ [index]) frame) := by
  have hlarger := extends_link habsent frame
  constructor
  case root => rw [hpml4]; exact hlarger [] s.pml4 h.root
  case root_aligned => rw [hpml4]; exact h.root_aligned
  case fresh => rw [hpml4, hframes]; exact hfresh
  case taken =>
    intro place position child hchild
    rw [link_table] at hchild
    rw [hframes, List.mem_append]
    split at hchild
    · obtain rfl := Option.some.inj hchild
      exact Or.inr (List.mem_singleton.mpr rfl)
    · exact Or.inl (h.taken place position child hchild)
  case injective =>
    intro place second child hplace hsecond
    rw [link_table] at hplace hsecond
    -- the frame is fresh, so no old table is stored in it
    split at hplace <;> split at hsecond
    · next hfirst hlast => rw [hfirst, hlast]
    · exact absurd (Option.some.inj hplace).symm (h.ne_of_fresh hfresh hsecond)
    · exact absurd (Option.some.inj hsecond).symm (h.ne_of_fresh hfresh hplace)
    · exact h.injective place second child hplace hsecond
  case table_closed =>
    intro place position child hchild
    rw [link_table] at hchild
    split at hchild
    · next hsame =>
        rw [(snoc_inj.mp hsame).1]
        exact hlarger.isSome (by rw [htable, Option.isSome_some])
    · exact hlarger.isSome (h.table_closed place position child hchild)
  case leaf_closed =>
    intro place position child hchild
    exact hlarger.isSome (h.leaf_closed place position child hchild)
  case inner =>
    intro place child position hchild hplace hposition
    rw [link_table] at hchild
    split at hchild
    · next hsame =>
        obtain rfl := Option.some.inj hchild
        -- the new table was cleared, and nothing lay below its path
        rw [new_table_entry h htable hindex hfresh hmem hposition, link_table, hsame, if_neg,
          (h.absent_below habsent position).1]
        · rfl
        · simp
    · rw [linked_entry h htable hindex hfresh hmem hchild hposition, link_table]
      simp only [snoc_inj]
      split
      · rfl
      · exact h.inner place child position hchild hplace hposition
  case outer =>
    intro place child position hchild hplace hposition
    rw [link_table] at hchild
    split at hchild
    · next hsame =>
        obtain rfl := Option.some.inj hchild
        rw [new_table_entry h htable hindex hfresh hmem hposition, hsame]
        exact (congrArg entryOf (h.absent_below habsent position).2).symm
    -- an entry of the last level is never the one that was linked, which lies higher
    · have hne : ¬ (place = path ∧ position = index) := by
        rintro ⟨rfl, -⟩
        omega
      rw [linked_entry h htable hindex hfresh hmem hchild hposition, if_neg hne]
      exact h.outer place child position hchild hplace hposition

/-! ## One level of `pmm_map_memory` -/

/-- What one level does: the entry was present and nothing changes, or a frame is requested,
cleared and linked. -/
theorem pmm_descend_cases (request : σ → BitVec 64 × σ) (s : PmmState σ)
    (table index : BitVec 64) :
    (pmmFlagGet (tableEntry s.mem table index) pdeP = true ∧
      pmmDescend request s table index = (pmmAddrGet (tableEntry s.mem table index) <<< 12, s)) ∨
    (pmmFlagGet (tableEntry s.mem table index) pdeP = false ∧
      ∃ frame ppa linked, request s.ppa = (frame, ppa) ∧
        linked = pmmFlagSet (pmmAddrSet (tableEntry s.mem table index) (frame >>> 12))
          (pdeP ||| pdeRW) 1 ∧
        pmmDescend request s table index =
          (frame,
            { s with
              mem := storeEntry (ppaMemset s.mem frame 0 4096) table index linked
              ppa := ppa
              trace := s.trace ++
                [.request frame, .memset frame 4096, .store table index linked] })) := by
  cases hflag : pmmFlagGet (tableEntry s.mem table index) pdeP with
  | true =>
      refine Or.inl ⟨rfl, ?_⟩
      simp [pmmDescend, hflag]
  | false =>
      refine Or.inr ⟨rfl, (request s.ppa).1, (request s.ppa).2, _, rfl, rfl, ?_⟩
      simp [pmmDescend, hflag]

/-- The frames requested by one level come after the frames requested before. -/
theorem frames_descend (request : σ → BitVec 64 × σ) (s : PmmState σ) (table index : BitVec 64) :
    ∃ more, (pmmDescend request s table index).2.frames = s.frames ++ more := by
  obtain ⟨-, hdescend⟩ | ⟨-, frame, ppa, linked, -, -, hdescend⟩ :=
    pmm_descend_cases request s table index
  · exact ⟨[], by rw [hdescend, List.append_nil]⟩
  · exact ⟨[frame], by rw [hdescend]; simp [PmmState.frames, PmmEvent.answer]⟩

/-- A descent keeps the root. -/
theorem pml4_descend (request : σ → BitVec 64 × σ) (s : PmmState σ) (table index : BitVec 64) :
    (pmmDescend request s table index).2.pml4 = s.pml4 := by
  obtain ⟨-, hdescend⟩ | ⟨-, _, _, _, -, -, hdescend⟩ := pmm_descend_cases request s table index
  all_goals rw [hdescend]

/-- One level finds the table of the extended path, or requests a frame and links it there. -/
theorem descend_tree (h : Represents s tree) (htable : tree.table path = some table)
    (hlen : path.length < 3) (hindex : index.toNat < 512)
    (hfresh : FreshFrames s.pml4 (pmmDescend request s table index).2.frames) :
    (∃ child, tree.table (path ++ [index]) = some child ∧
        pmmDescend request s table index = (child, s)) ∨
      (tree.table (path ++ [index]) = none ∧
        (pmmDescend request s table index).2.frames =
          s.frames ++ [(pmmDescend request s table index).1] ∧
        Represents (pmmDescend request s table index).2
          (tree.link (path ++ [index]) (pmmDescend request s table index).1)) := by
  have hentry := h.inner path table index htable hlen hindex
  obtain ⟨hflag, hdescend⟩ | ⟨hflag, frame, ppa, linked, -, hlinked, hdescend⟩ :=
    pmm_descend_cases request s table index
  · refine Or.inl ?_
    cases hchild : tree.table (path ++ [index]) with
    | none =>
        -- a present entry is not clear
        rw [hchild, entryOf] at hentry
        rw [hentry, flag_get_zero] at hflag
        cases hflag
    | some child =>
        refine ⟨child, rfl, ?_⟩
        rw [hchild, entryOf] at hentry
        rw [hdescend, hentry, addr_get_entry_to, h.frame_field hchild]
  · refine Or.inr ?_
    rw [hdescend] at hfresh ⊢
    have hframes : s.frames ++ [frame] = List.filterMap PmmEvent.answer (s.trace ++
        [.request frame, .memset frame 4096, .store table index linked]) := by
      simp [PmmState.frames, PmmEvent.answer]
    have habsent : tree.table (path ++ [index]) = none := by
      by_contra hsome
      obtain ⟨child, hchild⟩ := Option.ne_none_iff_exists'.mp hsome
      rw [hentry, hchild, entryOf, flag_get_entry_to] at hflag
      cases hflag
    -- the entry was clear, so it becomes exactly the entry for the new frame
    rw [hentry, habsent, entryOf, flag_set_addr_set_zero] at hlinked
    subst hlinked
    refine ⟨habsent, hframes.symm, ?_⟩
    rw [PmmState.frames, ← hframes] at hfresh
    exact link_represents h htable hlen hindex habsent hfresh rfl rfl hframes.symm

/-- One level reaches the table of the extended path, in a tree with the same tables and the same
frames mapped. -/
theorem descend_represents (h : Represents s tree) (htable : tree.table path = some table)
    (hlen : path.length < 3) (hindex : index.toNat < 512)
    (hfresh : FreshFrames s.pml4 (pmmDescend request s table index).2.frames) :
    ∃ larger, Represents (pmmDescend request s table index).2 larger ∧ tree.Extends larger ∧
      larger.leaf = tree.leaf ∧
      larger.table (path ++ [index]) = some (pmmDescend request s table index).1 := by
  obtain ⟨child, hchild, hdescend⟩ | ⟨habsent, -, hlinked⟩ :=
    descend_tree h htable hlen hindex hfresh
  · rw [hdescend]
    exact ⟨tree, h, fun _ _ hkeep => hkeep, rfl, hchild⟩
  · refine ⟨_, hlinked, extends_link habsent _, rfl, ?_⟩
    rw [link_table, if_pos rfl]

/-! ## A whole call -/

/-- Setting a leaf requests no frame. -/
theorem frames_set_leaf (s : PmmState σ) (table index paddr : BitVec 64) :
    (pmmSetLeaf s table index paddr).frames = s.frames := by
  simp [pmmSetLeaf, PmmState.frames, PmmEvent.answer]

/-- Storing one entry of a table of the last level. -/
theorem set_leaf_represents (h : Represents s tree) (htable : tree.table path = some table)
    (hlen : path.length = 3) (hindex : index.toNat < 512) (paddr : BitVec 64) :
    Represents (pmmSetLeaf s table index paddr) (tree.setLeaf (path ++ [index]) paddr) := by
  have hframes := frames_set_leaf s table index paddr
  have hmapped : pmmFlagSet (pmmAddrSet (tableEntry s.mem table index) (paddr >>> 12))
      (pdeP ||| pdeRW) 1 = entryTo paddr := by
    rw [h.outer path table index htable hlen hindex]
    cases tree.leaf (path ++ [index]) with
    | none => exact flag_set_addr_set_zero paddr
    | some old => exact flag_set_addr_set_entry_to old paddr
  -- two entries at one address belong to one table, and so to one path
  have hkept : ∀ place child position, tree.table place = some child → position.toNat < 512 →
      ¬ (place = path ∧ position = index) →
      tableEntry (pmmSetLeaf s table index paddr).mem child position =
        tableEntry s.mem child position := by
    intro place child position hchild hposition hdiff
    refine entry_store_other (h.aligned htable) (h.aligned hchild) hindex hposition ?_ _
    by_contra hboth
    rw [not_or, not_not, not_not] at hboth
    obtain ⟨rfl, rfl⟩ := hboth
    exact hdiff ⟨h.injective place path table hchild htable, rfl⟩
  constructor
  case root => exact h.root
  case root_aligned => exact h.root_aligned
  case fresh => rw [hframes]; exact h.fresh
  case taken => rw [hframes]; exact h.taken
  case injective => exact h.injective
  case table_closed => exact h.table_closed
  case leaf_closed =>
    intro place position frame hframe
    rw [set_leaf_leaf] at hframe
    split at hframe
    · next hsame =>
        rw [(snoc_inj.mp hsame).1]
        exact Option.isSome_of_eq_some htable
    · exact h.leaf_closed place position frame hframe
  case inner =>
    intro place child position hchild hplace hposition
    rw [hkept place child position hchild hposition]
    · exact h.inner place child position hchild hplace hposition
    · rintro ⟨rfl, -⟩
      omega
  case outer =>
    intro place child position hchild hplace hposition
    rw [set_leaf_leaf]
    simp only [snoc_inj]
    split
    · next hsame =>
        obtain ⟨rfl, rfl⟩ := hsame
        obtain rfl : table = child := Option.some.inj (htable.symm.trans hchild)
        exact entry_store_same _ |>.trans hmapped
    · next hdiff =>
        rw [hkept place child position hchild hposition hdiff]
        exact h.outer place child position hchild hplace hposition

/-- A mapping sets a leaf in the table that the descent reaches. -/
theorem map_eq_set_leaf (request : σ → BitVec 64 × σ) (s : PmmState σ) (vaddr paddr : BitVec 64) :
    pmmMapMemory request s vaddr paddr =
      pmmSetLeaf (pmmPt request s vaddr).2 (pmmPt request s vaddr).1 (pmmIndex vaddr 12) paddr :=
  rfl

/-- A mapping keeps the root. -/
theorem pml4_map (request : σ → BitVec 64 × σ) (s : PmmState σ) (vaddr paddr : BitVec 64) :
    (pmmMapMemory request s vaddr paddr).pml4 = s.pml4 := by
  rw [map_eq_set_leaf, pmmSetLeaf, pmmPt, pml4_descend, pmmPd, pml4_descend, pmmPdp, pml4_descend]

/-- The frames requested by a call come after the frames requested before. -/
theorem frames_map (request : σ → BitVec 64 × σ) (s : PmmState σ) (vaddr paddr : BitVec 64) :
    ∃ more, (pmmMapMemory request s vaddr paddr).frames = s.frames ++ more := by
  obtain ⟨first, hfirst⟩ := frames_descend request s s.pml4 (pmmIndex vaddr 39)
  obtain ⟨second, hsecond⟩ := frames_descend request (pmmPdp request s vaddr).2
    (pmmPdp request s vaddr).1 (pmmIndex vaddr 30)
  obtain ⟨third, hthird⟩ := frames_descend request (pmmPd request s vaddr).2
    (pmmPd request s vaddr).1 (pmmIndex vaddr 21)
  refine ⟨first ++ second ++ third, ?_⟩
  rw [map_eq_set_leaf, frames_set_leaf, pmmPt, hthird, pmmPd, hsecond, pmmPdp, hfirst]
  simp only [List.append_assoc]

/-- The answers of a level are among the answers of the call, so they are fresh as well. -/
theorem fresh_levels {vaddr paddr : BitVec 64}
    (hfresh : FreshFrames s.pml4 (pmmMapMemory request s vaddr paddr).frames) :
    FreshFrames s.pml4 (pmmPdp request s vaddr).2.frames ∧
      FreshFrames (pmmPdp request s vaddr).2.pml4 (pmmPd request s vaddr).2.frames ∧
      FreshFrames (pmmPd request s vaddr).2.pml4 (pmmPt request s vaddr).2.frames := by
  rw [map_eq_set_leaf, frames_set_leaf] at hfresh
  have hrootpdp : (pmmPdp request s vaddr).2.pml4 = s.pml4 := by rw [pmmPdp, pml4_descend]
  have hrootpd : (pmmPd request s vaddr).2.pml4 = s.pml4 := by rw [pmmPd, pml4_descend, hrootpdp]
  obtain ⟨second, hsecond⟩ := frames_descend request (pmmPdp request s vaddr).2
    (pmmPdp request s vaddr).1 (pmmIndex vaddr 30)
  obtain ⟨third, hthird⟩ := frames_descend request (pmmPd request s vaddr).2
    (pmmPd request s vaddr).1 (pmmIndex vaddr 21)
  have hfreshpd : FreshFrames s.pml4 (pmmPd request s vaddr).2.frames := (hthird ▸ hfresh).of_append
  have hfreshpdp : FreshFrames s.pml4 (pmmPdp request s vaddr).2.frames :=
    (hsecond ▸ hfreshpd).of_append
  exact ⟨hfreshpdp, hrootpdp.symm ▸ hfreshpd, hrootpd.symm ▸ hfresh⟩

/-- One call creates the tables on the path of its address and maps that path. -/
theorem map_represents (h : Represents s tree) {vaddr paddr : BitVec 64}
    (hfresh : FreshFrames s.pml4 (pmmMapMemory request s vaddr paddr).frames) :
    ∃ larger, Represents (pmmMapMemory request s vaddr paddr) larger ∧ tree.Extends larger ∧
      (larger.table (tablePath vaddr)).isSome ∧
      larger.leaf = Function.update tree.leaf (pagePath vaddr) (some paddr) := by
  obtain ⟨hfreshpdp, hfreshpd, hfreshpt⟩ := fresh_levels hfresh
  obtain ⟨tree1, hrep1, hext1, hleaf1, htable1⟩ :=
    descend_represents h h.root (by decide) (pmm_index_lt vaddr 39) hfreshpdp
  obtain ⟨tree2, hrep2, hext2, hleaf2, htable2⟩ :=
    descend_represents hrep1 htable1 (by simp) (pmm_index_lt vaddr 30) hfreshpd
  obtain ⟨tree3, hrep3, hext3, hleaf3, htable3⟩ :=
    descend_represents hrep2 htable2 (by simp) (pmm_index_lt vaddr 21) hfreshpt
  rw [map_eq_set_leaf]
  refine ⟨tree3.setLeaf (pagePath vaddr) paddr, ?_, ?_, ?_, ?_⟩
  · exact set_leaf_represents hrep3 htable3 (by simp) (pmm_index_lt vaddr 12) paddr
  · exact fun place child hchild => hext3 _ _ (hext2 _ _ (hext1 _ _ hchild))
  · exact Option.isSome_of_eq_some htable3
  · rw [PageTree.setLeaf, hleaf3, hleaf2, hleaf1]

/-- A level whose table exists makes no request. -/
theorem descend_reuse (h : Represents s tree) (htable : tree.table path = some table)
    (hlen : path.length < 3) (hindex : index.toNat < 512) {child : BitVec 64}
    (hchild : tree.table (path ++ [index]) = some child) :
    pmmDescend request s table index = (child, s) := by
  have hentry := h.inner path table index htable hlen hindex
  rw [hchild, entryOf] at hentry
  simp only [pmmDescend, hentry, flag_get_entry_to, if_true, addr_get_entry_to,
    h.frame_field hchild]

/-- A call whose tables exist only stores its leaf. -/
theorem map_reuse (request : σ → BitVec 64 × σ) (h : Represents s tree) {vaddr : BitVec 64}
    (hexists : (tree.table (tablePath vaddr)).isSome) (paddr : BitVec 64) :
    ∃ pt, pmmMapMemory request s vaddr paddr = pmmSetLeaf s pt (pmmIndex vaddr 12) paddr := by
  obtain ⟨pt, hpt⟩ := Option.isSome_iff_exists.mp hexists
  obtain ⟨pd, hpd⟩ := Option.isSome_iff_exists.mp
    (h.table_closed [pmmIndex vaddr 39, pmmIndex vaddr 30] (pmmIndex vaddr 21) pt hpt)
  obtain ⟨pdp, hpdp⟩ := Option.isSome_iff_exists.mp
    (h.table_closed [pmmIndex vaddr 39] (pmmIndex vaddr 30) pd hpd)
  have hfirst : pmmPdp request s vaddr = (pdp, s) :=
    descend_reuse h h.root (by decide) (pmm_index_lt vaddr 39) hpdp
  have hsecond : pmmPd request s vaddr = (pd, s) := by
    rw [pmmPd, hfirst]
    exact descend_reuse h hpdp (by simp) (pmm_index_lt vaddr 30) hpd
  refine ⟨pt, ?_⟩
  rw [map_eq_set_leaf, pmmPt, hsecond,
    descend_reuse h hpd (by simp) (pmm_index_lt vaddr 21) hpt]

/-! ## Reading the tree -/

/-- One level of `pmm_find_paddr` above the last: it follows the tree. -/
theorem follow_inner (h : Represents s tree) (htable : tree.table path = some table)
    (hlen : path.length < 3) (hindex : index.toNat < 512) :
    pmmFollow s.mem table index = tree.table (path ++ [index]) := by
  rw [pmmFollow, h.inner path table index htable hlen hindex]
  cases hchild : tree.table (path ++ [index]) with
  | none => rfl
  | some child =>
      simp only [entryOf, flag_get_entry_to, addr_get_entry_to, if_true, h.frame_field hchild]

/-- The last level of `pmm_find_paddr`. -/
theorem follow_outer (h : Represents s tree) (htable : tree.table path = some table)
    (hlen : path.length = 3) (hindex : index.toNat < 512) :
    pmmFollow s.mem table index = (tree.leaf (path ++ [index])).map frameField := by
  rw [pmmFollow, h.outer path table index htable hlen hindex]
  cases tree.leaf (path ++ [index]) with
  | none => rfl
  | some frame => simp only [entryOf, flag_get_entry_to, addr_get_entry_to, if_true,
      Option.map_some]

/-- Without its last table a page is not mapped. -/
theorem Represents.leaf_of_no_pt (h : Represents s tree) {vaddr : BitVec 64}
    (hpt : tree.table ([] ++ [pmmIndex vaddr 39] ++ [pmmIndex vaddr 30] ++ [pmmIndex vaddr 21]) =
      none) : tree.leaf (pagePath vaddr) = none :=
  (h.absent_below hpt (pmmIndex vaddr 12)).2

/-- A page without a page directory is not mapped. -/
theorem Represents.leaf_of_no_pd (h : Represents s tree) {vaddr : BitVec 64}
    (hpd : tree.table ([] ++ [pmmIndex vaddr 39] ++ [pmmIndex vaddr 30]) = none) :
    tree.leaf (pagePath vaddr) = none :=
  h.leaf_of_no_pt (h.absent_below hpd (pmmIndex vaddr 21)).1

/-- Neither is one without a page directory pointer table. -/
theorem Represents.leaf_of_no_pdp (h : Represents s tree) {vaddr : BitVec 64}
    (hpdp : tree.table ([] ++ [pmmIndex vaddr 39]) = none) : tree.leaf (pagePath vaddr) = none :=
  h.leaf_of_no_pd (h.absent_below hpdp (pmmIndex vaddr 30)).1

/-- `pmm_find_paddr` returns the frame field that the tree maps, and 0 if there is none. -/
theorem find_represents (h : Represents s tree) (vaddr : BitVec 64) :
    pmmFindPaddr s vaddr = ((tree.leaf (pagePath vaddr)).map frameField).getD 0 := by
  rw [pmmFindPaddr, follow_inner h h.root (by decide) (pmm_index_lt vaddr 39)]
  cases hpdp : tree.table ([] ++ [pmmIndex vaddr 39]) with
  | none =>
      rw [h.leaf_of_no_pdp hpdp]
      rfl
  | some pdp =>
      simp only [Option.bind_eq_bind, Option.bind_some]
      rw [follow_inner h hpdp (by simp) (pmm_index_lt vaddr 30)]
      cases hpd : tree.table ([] ++ [pmmIndex vaddr 39] ++ [pmmIndex vaddr 30]) with
      | none =>
          rw [h.leaf_of_no_pd hpd]
          rfl
      | some pd =>
          simp only [Option.bind_some]
          rw [follow_inner h hpd (by simp) (pmm_index_lt vaddr 21)]
          cases hpt : tree.table
              ([] ++ [pmmIndex vaddr 39] ++ [pmmIndex vaddr 30] ++ [pmmIndex vaddr 21]) with
          | none =>
              rw [h.leaf_of_no_pt hpt]
              rfl
          | some pt =>
              simp only [Option.bind_some]
              rw [follow_outer h hpt (by simp) (pmm_index_lt vaddr 12)]
              rfl

/-- `pmm_init_pml4` on a zeroed table starts from the tree of a root alone. -/
theorem init_pml4_represents {addr : BitVec 64} (haligned : PageAligned addr)
    (hzero : ∀ position, position.toNat < 512 → tableEntry s.mem addr position = 0)
    (hfresh : FreshFrames addr s.frames) :
    Represents (pmmInitPml4 s addr) (PageTree.root addr) := by
  constructor
  case root => rfl
  case root_aligned => exact haligned
  case fresh => exact hfresh
  case taken => intro place position child hchild; simp [PageTree.root] at hchild
  case injective =>
    intro place second child hplace hsecond
    simp only [PageTree.root] at hplace hsecond
    split at hplace <;> split at hsecond
    · next hfirst hlast => rw [hfirst, hlast]
    all_goals contradiction
  case table_closed => intro place position child hchild; simp [PageTree.root] at hchild
  case leaf_closed => intro place position child hchild; cases hchild
  case inner =>
    intro place child position hchild hplace hposition
    simp only [PageTree.root] at hchild
    split at hchild
    · next hroot =>
        obtain rfl := Option.some.inj hchild
        simp [pmmInitPml4, hzero position hposition, PageTree.root, entryOf]
    · cases hchild
  case outer =>
    intro place child position hchild hplace hposition
    simp only [PageTree.root] at hchild
    split at hchild
    · next hroot =>
        subst hroot
        cases hplace
    · cases hchild

end SiStultum
