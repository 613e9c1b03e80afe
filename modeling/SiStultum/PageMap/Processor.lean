import SiStultum.PageMap.Refinement

/-!
# Translation by the processor

`x86Walk` is the four-level translation of x86-64, with large pages. `pmm_find_paddr` follows the
same entries and stops at the frame of the page, without the offset in it
(`find_paddr_translates_iff`).
-/

namespace SiStultum

/-- The entry that the processor reads at one level, if it is present (bit 0). -/
def x86Fetch (mem : ByteMemory) (table vaddr : BitVec 64) (low : Nat) : Option (BitVec 64) :=
  let entry : BitVec 64 := mem.read (table + 8 * (vaddr.extractLsb' low 9).setWidth 64) 8
  if entry.getLsbD 0 then some entry else none

/-- The entry maps a page instead of a table (bit 7). -/
def x86Large (entry : BitVec 64) : Bool :=
  entry.getLsbD 7

/-- The address in an entry, from bit `low` to bit 51. -/
def x86Base (entry : BitVec 64) (low : Nat) : BitVec 64 :=
  (entry.extractLsb' low (52 - low)).setWidth 64 <<< low

/-- The offset of an address in a page of `2 ^ low` bytes. -/
def x86Offset (vaddr : BitVec 64) (low : Nat) : BitVec 64 :=
  (vaddr.extractLsb' 0 low).setWidth 64

/-- The physical address of `vaddr`, `none` if some level is not present. A root entry never maps a
page, and the bits above bit 47, all equal, take no part. -/
def x86Walk (mem : ByteMemory) (root vaddr : BitVec 64) : Option (BitVec 64) := do
  let pml4e ← x86Fetch mem root vaddr 39
  if x86Large pml4e then none
  else
    let pdpte ← x86Fetch mem (x86Base pml4e 12) vaddr 30
    if x86Large pdpte then some (x86Base pdpte 30 ||| x86Offset vaddr 30)
    else
      let pde ← x86Fetch mem (x86Base pdpte 12) vaddr 21
      if x86Large pde then some (x86Base pde 21 ||| x86Offset vaddr 21)
      else
        let pte ← x86Fetch mem (x86Base pde 12) vaddr 12
        some (x86Base pte 12 ||| x86Offset vaddr 12)

/-- `pmm_find_paddr` agrees with the processor on an address. -/
structure Translates {σ : Type*} (s : PmmState σ) (vaddr : BitVec 64) : Prop where
  present : ∀ paddr, x86Walk s.mem s.pml4 vaddr = some paddr → pmmFindPaddr s vaddr = paddr
  absent : x86Walk s.mem s.pml4 vaddr = none → pmmFindPaddr s vaddr = 0

/-! ## The entries of `pmm_map_memory` -/

/-- The processor and the kernel cut an address alike. -/
theorem x86_index_eq (vaddr : BitVec 64) (low : Nat) :
    (vaddr.extractLsb' low 9).setWidth 64 = pmmIndex vaddr low := by
  apply BitVec.eq_of_toNat_eq
  rw [pmm_index_to_nat, BitVec.toNat_setWidth, BitVec.extractLsb'_toNat, Nat.shiftRight_eq_div_pow]
  omega

/-- The bits of the address that the processor takes from an entry. -/
theorem x86_base_bit (entry : BitVec 64) {i : Nat} (hi : i < 64) :
    (x86Base entry 12).getLsbD i = (entry.getLsbD i && (decide (12 ≤ i) && decide (i < 52))) := by
  rw [x86Base, BitVec.getLsbD_shiftLeft]
  by_cases h12 : i < 12
  · simp [h12, Nat.not_le_of_lt h12]
  · rw [BitVec.getLsbD_setWidth, BitVec.getLsbD_extractLsb', show 12 + (i - 12) = i by omega]
    have hfield : i - 12 < 52 - 12 ↔ i < 52 := by omega
    have hlow : i - 12 < 64 := by omega
    simp [h12, hi, hfield, hlow, Nat.le_of_not_lt h12, Bool.and_comm]

/-- The processor reads the frame field of an entry. -/
theorem x86_base_entry_to (frame : BitVec 64) : x86Base (entryTo frame) 12 = frameField frame := by
  apply BitVec.eq_of_getLsbD_eq
  intro i hi
  rw [x86_base_bit _ hi, entry_to_bit frame hi, frame_field_bit frame hi]
  by_cases h12 : 12 ≤ i
  · have h2 : ¬ i < 2 := by omega
    simp [h12, h2]
  · simp [h12]

/-- An entry of the kernel is not a large page. -/
theorem x86_large_entry_to (frame : BitVec 64) : x86Large (entryTo frame) = false := by
  rw [x86Large, entry_to_bit frame (by decide), frame_field_bit frame (by decide)]
  simp

/-- A level of the processor reads what the tree holds. -/
theorem x86_fetch_eq {mem : ByteMemory} {table vaddr : BitVec 64} {low : Nat}
    {child : Option (BitVec 64)} (h : tableEntry mem table (pmmIndex vaddr low) = entryOf child) :
    x86Fetch mem table vaddr low = child.map entryTo := by
  rw [tableEntry] at h
  rw [x86Fetch, x86_index_eq, h]
  cases child with
  | none => rfl
  | some frame =>
      have hpresent : (entryTo frame).getLsbD 0 = true := by
        rw [entry_to_bit frame (by decide), decide_eq_true (by decide), Bool.or_true]
      simp only [entryOf, hpresent, if_true, Option.map_some]

variable {σ : Type*} {s : PmmState σ} {tree : PageTree}

/-- A level above the last leads to the table below it. -/
theorem fetch_inner (h : Represents s tree) {path : List (BitVec 64)} {table : BitVec 64}
    (htable : tree.table path = some table) (hlen : path.length < 3) (vaddr : BitVec 64)
    (low : Nat) :
    x86Fetch s.mem table vaddr low = (tree.table (path ++ [pmmIndex vaddr low])).map entryTo :=
  x86_fetch_eq (h.inner path table _ htable hlen (pmm_index_lt vaddr low))

/-- The processor follows an entry to the table that the kernel has linked. -/
theorem child_base (h : Represents s tree) {path : List (BitVec 64)} {index table : BitVec 64}
    (htable : tree.table (path ++ [index]) = some table) :
    x86Base (entryTo table) 12 = table := by
  rw [x86_base_entry_to, h.frame_field htable]

/-- The processor's translation of a page: its frame and the offset. -/
theorem walk_represents (h : Represents s tree) (vaddr : BitVec 64) :
    x86Walk s.mem s.pml4 vaddr = (tree.leaf (pagePath vaddr)).map fun frame =>
      frameField frame ||| x86Offset vaddr 12 := by
  rw [x86Walk, fetch_inner h h.root (by decide) vaddr 39]
  cases hpdp : tree.table ([] ++ [pmmIndex vaddr 39]) with
  | none =>
      rw [h.leaf_of_no_pdp hpdp]
      rfl
  | some pdp =>
      simp only [Option.map_some, Option.bind_eq_bind, Option.bind_some, x86_large_entry_to,
        Bool.false_eq_true, if_false, child_base h hpdp]
      rw [fetch_inner h hpdp (by simp) vaddr 30]
      cases hpd : tree.table ([] ++ [pmmIndex vaddr 39] ++ [pmmIndex vaddr 30]) with
      | none =>
          rw [h.leaf_of_no_pd hpd]
          rfl
      | some pd =>
          simp only [Option.map_some, Option.bind_some, x86_large_entry_to, Bool.false_eq_true,
            if_false, child_base h hpd]
          rw [fetch_inner h hpd (by simp) vaddr 21]
          cases hpt : tree.table
              ([] ++ [pmmIndex vaddr 39] ++ [pmmIndex vaddr 30] ++ [pmmIndex vaddr 21]) with
          | none =>
              rw [h.leaf_of_no_pt hpt]
              rfl
          | some pt =>
              have hentry := x86_fetch_eq (h.outer _ pt _ hpt (by simp) (pmm_index_lt vaddr 12))
              simp only [Option.map_some, Option.bind_some, x86_large_entry_to, Bool.false_eq_true,
                if_false, child_base h hpt, hentry]
              cases hleaf : tree.leaf ([] ++ [pmmIndex vaddr 39] ++ [pmmIndex vaddr 30] ++
                  [pmmIndex vaddr 21] ++ [pmmIndex vaddr 12]) with
              | none => exact (congrArg (Option.map _) hleaf).symm
              | some frame =>
                  simp only [Option.map_some, Option.bind_some, x86_base_entry_to]
                  rw [show tree.leaf (pagePath vaddr) = some frame from hleaf, Option.map_some]

/-! ## Offsets -/

/-- The bits of the offset in a page. -/
theorem offset_bit (vaddr : BitVec 64) {i : Nat} (hi : i < 64) :
    (x86Offset vaddr 12).getLsbD i = (decide (i < 12) && vaddr.getLsbD i) := by
  rw [x86Offset, BitVec.getLsbD_setWidth, BitVec.getLsbD_extractLsb', Nat.zero_add,
    decide_eq_true hi, Bool.true_and]

/-- An address at the start of a page has no offset. -/
theorem offset_eq_zero_iff (vaddr : BitVec 64) : x86Offset vaddr 12 = 0#64 ↔ PageAligned vaddr := by
  rw [← BitVec.toNat_inj, x86Offset, BitVec.toNat_setWidth, BitVec.extractLsb'_toNat,
    Nat.shiftRight_zero, PageAligned]
  show vaddr.toNat % 4096 % 2 ^ 64 = 0 ↔ _
  omega

/-- The bits of the offset are clear in a frame field. -/
theorem frame_field_or_offset_iff (frame vaddr : BitVec 64) :
    frameField frame = frameField frame ||| x86Offset vaddr 12 ↔ PageAligned vaddr := by
  rw [← offset_eq_zero_iff]
  constructor
  · intro heq
    apply BitVec.eq_of_getLsbD_eq
    intro i hi
    have hbit := congrArg (fun bits => bits.getLsbD i) heq
    simp only [BitVec.getLsbD_or, frame_field_bit frame hi, offset_bit vaddr hi] at hbit
    rw [offset_bit vaddr hi, BitVec.getLsbD_zero]
    by_cases h12 : i < 12
    · simpa [h12, Nat.not_le_of_lt h12] using hbit.symm
    · simp [h12]
  · intro hzero
    rw [hzero, BitVec.or_zero]

variable {view : PageMap}

/-- The processor's translation from the map that the tables refine. -/
theorem refines_walk (h : Refines s view) (vaddr : BitVec 64) :
    x86Walk s.mem s.pml4 vaddr = (view (pageNumber vaddr)).map fun frame =>
      frameField frame ||| x86Offset vaddr 12 := by
  obtain ⟨tree, hrep, hview⟩ := h
  rw [walk_represents hrep, hview]

/-- The two agree on an address exactly when it is not mapped, or begins a page. -/
theorem translates_iff (h : Refines s view) (vaddr : BitVec 64) :
    Translates s vaddr ↔ view (pageNumber vaddr) = none ∨ PageAligned vaddr := by
  have hwalk := refines_walk h vaddr
  have hfind := refines_find h vaddr
  cases hpage : view (pageNumber vaddr) with
  | none =>
      rw [hpage] at hwalk hfind
      refine ⟨fun _ => .inl rfl, fun _ => ⟨fun paddr hpaddr => ?_, fun _ => hfind⟩⟩
      rw [hwalk] at hpaddr
      cases hpaddr
  | some frame =>
      rw [hpage] at hwalk hfind
      rw [or_iff_right (Option.some_ne_none frame), ← frame_field_or_offset_iff frame]
      constructor
      · intro htranslates
        exact hfind.symm.trans (htranslates.present _ hwalk)
      · intro heq
        refine ⟨fun paddr hpaddr => ?_, fun habsent => ?_⟩
        · rw [hwalk] at hpaddr
          exact hfind.trans (heq.trans (Option.some.inj hpaddr))
        · rw [hwalk] at habsent
          cases habsent

/-- After any calls of `pmm_map_memory` from a zeroed root table, `pmm_find_paddr` agrees with the
processor on the pages that were never mapped, and on every other page at its first address. -/
theorem find_paddr_translates_iff (request : σ → BitVec 64 × σ) {mem : ByteMemory} {ppa : σ}
    {pml4 : BitVec 64} (haligned : PageAligned pml4)
    (hzero : ∀ index, index.toNat < 512 → tableEntry mem pml4 index = 0) {ops : List (PmmOp σ)}
    (hadmits : Runs.Meets (pmmStep request) (PmmAdmits request)
      (pmmInitPml4 (pmmBoot mem ppa) pml4) ops) (vaddr : BitVec 64) :
    Translates (pmmReach request mem ppa pml4 ops) vaddr ↔
      lastMapped ops (pageNumber vaddr) = none ∨ PageAligned vaddr := by
  rw [translates_iff (refines_reach haligned hzero hadmits), run_page_map, Option.or_none]

/-- Two pages mapped from a zeroed memory. -/
theorem find_paddr_translates_two_pages :
    Translates (pmmReach bumpRequest (fun _ => 0) 2 0x1000
        [.map 0x600000 0x80000, .map 0x601000 0x81000]) 0x601000 ↔
      lastMapped ([.map 0x600000 0x80000, .map 0x601000 0x81000] : List (PmmOp Nat))
        (pageNumber 0x601000) = none ∨ PageAligned 0x601000 :=
  find_paddr_translates_iff bumpRequest (by decide)
    (fun index _ => table_entry_zeroed 0x1000 index)
    (bump_meets [(0x600000, 0x80000), (0x601000, 0x81000)] (by decide)) 0x601000

/-- The tables after one page has been mapped. -/
def onePage : PmmState Nat :=
  pmmReach bumpRequest (fun _ => 0) 2 0x1000 [.map 0x600000 0x80000]

/-- Inside a mapped page `pmm_find_paddr` returns the start of its frame. -/
theorem find_paddr_drops_offset :
    x86Walk onePage.mem onePage.pml4 0x600123 = some 0x80123 ∧
      pmmFindPaddr onePage 0x600123 = 0x80000 := by
  have hrefines : Refines onePage (Runs.run PageMap.step (fun _ => none)
      ([.map 0x600000 0x80000] : List (PmmOp Nat))) :=
    refines_reach (by decide) (fun index _ => table_entry_zeroed 0x1000 index)
      (bump_meets [(0x600000, 0x80000)] (by decide))
  constructor
  · exact (refines_walk hrefines 0x600123).trans (by decide)
  · exact (refines_find hrefines 0x600123).trans (by decide)

end SiStultum
