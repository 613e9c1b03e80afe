import SiStultum.Kernel.IdentityLoop
import SiStultum.Library.Intervals
import SiStultum.PageFrames.Counters
import SiStultum.PageFrames.FreeSet

/-!
# The memory that the kernel keeps addressable

`mem_total`, the bound of the first loop of `init_pmm`, is the sum of the sizes of the
descriptors. `described_memory_mapped_iff` says when the memory that the firmware described is
mapped: the sum of the sizes is a bound for the addresses only if the descriptors leave no gap.
`gapMap` is a map for which a described page is lost.
-/

namespace SiStultum

open PpaState

/-- An address of a descriptor. -/
def EfiMemoryDescriptor.Contains (desc : EfiMemoryDescriptor) (addr : Nat) : Prop :=
  Intervals.Contains (fun d : EfiMemoryDescriptor => d.physicalstart.toNat)
    (fun d => 4096 * d.numberofpages.toNat) desc addr

/-- The descriptors are page-aligned, pairwise disjoint and below 2 ^ 48. -/
structure DisjointMap (mmap : List EfiMemoryDescriptor) : Prop where
  aligned : ∀ desc ∈ mmap, PageAligned desc.physicalstart
  low : ∀ desc ∈ mmap, desc.physicalstart.toNat + 4096 * desc.numberofpages.toNat ≤ 2 ^ 48
  disjoint : mmap.Pairwise fun d e => ∀ addr, ¬ (d.Contains addr ∧ e.Contains addr)

/-- The firmware described the address. -/
def Described (mmap : List EfiMemoryDescriptor) (addr : BitVec 64) : Prop :=
  ∃ desc ∈ mmap, desc.Contains addr.toNat

/-! ## The memory map -/

/-- The sum of the sizes of disjoint descriptors below 2 ^ 48. -/
theorem disjoint_map_pages {mmap : List EfiMemoryDescriptor} (hmap : DisjointMap mmap) :
    4096 * pageCount mmap ≤ 2 ^ 48 := by
  have hsum := Intervals.sum_length_le (fun d : EfiMemoryDescriptor => d.physicalstart.toNat)
    (fun d => 4096 * d.numberofpages.toNat) hmap.low hmap.disjoint
  have hscale : (mmap.map fun d => 4096 * d.numberofpages.toNat).sum = 4096 * pageCount mmap := by
    unfold pageCount
    clear hsum hmap
    induction mmap with
    | nil => rfl
    | cons desc mmap ih => simp only [List.map_cons, List.sum_cons, ih, Nat.mul_add]
  omega

/-- The total after `ppa_init` and any calls. -/
theorem reach_mem_total (words : Nat → BitVec 32) {mmap : List EfiMemoryDescriptor}
    (reread : List EfiMemoryDescriptor) (ops : List PpaOp) (hmap : DisjointMap mmap) :
    (ppaReach words mmap reread ops).memTotal.toNat = 4096 * pageCount mmap ∧
      ShortBitmap (ppaReach words mmap reread ops).memTotal (ppaReach words mmap reread ops) := by
  have hpages := disjoint_map_pages hmap
  have htotal := scan_total_eq (show pageCount mmap < 2 ^ 52 by omega)
  by_cases haccepted : Accepted mmap
  · have hfixed := ppa_reach_fixed words reread ops haccepted
    simp only [fixed, Prod.mk.injEq] at hfixed
    refine ⟨by rw [hfixed.2.2.2.1, htotal], rfl, ?_⟩
    rw [hfixed.1, bitmap_size_to_nat]
    omega
  · have hfixed := ppa_reach_rejected words reread ops haccepted
    simp only [fixed, Prod.mk.injEq] at hfixed
    refine ⟨by rw [hfixed.2.2.2.1, htotal], rfl, ?_⟩
    rw [hfixed.1]
    decide

/-- `init_pmm` returns, and the pages that the firmware described and those of the framebuffer are
mapped to themselves exactly when every described page lies below the sum of the sizes of the
descriptors or in the framebuffer. -/
theorem described_memory_mapped_iff (words : Nat → BitVec 32) (mem : ByteMemory)
    {mmap : List EfiMemoryDescriptor} (reread : List EfiMemoryDescriptor) (ops : List PpaOp)
    {fbbase fbsize : BitVec 64} (hmap : DisjointMap mmap) (hbase : PageAligned fbbase)
    (hend : fbbase.toNat + fbsize.toNat ≤ 2 ^ 48) {fuel : Nat} (hfuel : 2 ^ 36 ≤ fuel) :
    ∃ after, initPmm fuel (kernelBoot mem (ppaReach words mmap reread ops)) fbbase fbsize =
        some after ∧
      (FreshAnswers after →
        ((∀ page, PageAligned page → Described mmap page ∨ InFramebuffer fbbase fbsize page →
          pmmFindPaddr after.pmm page = page) ↔
        ∀ page, PageAligned page → Described mmap page →
          page.toNat < 4096 * pageCount mmap ∨ InFramebuffer fbbase fbsize page)) := by
  obtain ⟨htotal, hshort⟩ := reach_mem_total words reread ops hmap
  have hpages := disjoint_map_pages hmap
  refine ⟨_, init_pmm_eq_reach hshort (by omega) hend mem hfuel, ?_⟩
  intro hfresh
  have hfind : ∀ page, PageAligned page → page.toNat < 2 ^ 48 →
      pmmFindPaddr (initReach mem (ppaReach words mmap reread ops) fbbase fbsize) page =
        if page.toNat < 4096 * pageCount mmap ∨ InFramebuffer fbbase fbsize page then page
        else 0 := by
    rw [← htotal]
    exact fun page => find_init_reach hshort (by omega) hbase hend mem hfresh
  have hlow : ∀ page, Described mmap page ∨ InFramebuffer fbbase fbsize page →
      page.toNat < 2 ^ 48 := by
    rintro page (⟨desc, hdesc, -, hlt⟩ | ⟨-, hlt⟩)
    · exact Nat.lt_of_lt_of_le hlt (hmap.low desc hdesc)
    · omega
  constructor
  · intro hmapped page hpage hdescribed
    by_contra hout
    have htranslated := hmapped page hpage (Or.inl hdescribed)
    rw [hfind page hpage (hlow page (Or.inl hdescribed)), if_neg hout] at htranslated
    -- a map that describes page 0 has at least one page
    have hzero : page.toNat = 0 := congrArg BitVec.toNat htranslated.symm
    obtain ⟨desc, hdesc, hcontains⟩ := hdescribed
    have hrange : desc.physicalstart.toNat ≤ page.toNat ∧
        page.toNat < desc.physicalstart.toNat + 4096 * desc.numberofpages.toNat := hcontains
    have hle := pages_le_count hdesc
    have hpositive : page.toNat < 4096 * pageCount mmap := by omega
    exact hout (Or.inl hpositive)
  · intro hcovered page hpage hin
    rw [hfind page hpage (hlow page hin)]
    rcases hin with hdescribed | hframebuffer
    · rw [if_pos (hcovered page hpage hdescribed)]
    · rw [if_pos (Or.inr hframebuffer)]

/-! ## Calls that need no table -/

/-- Calls whose last table exists request nothing. -/
theorem identity_reuse {s : PmmState PpaState} {tree : PageTree} (h : Represents s tree)
    {path : List (BitVec 64)} (hexists : (tree.table path).isSome) {pages : List (BitVec 64)}
    (hpages : ∀ page ∈ pages, tablePath page = path) :
    (Runs.run (pmmStep ppaRequest) s (identityOps pages)).frames = s.frames ∧
      (Runs.run (pmmStep ppaRequest) s (identityOps pages)).ppa = s.ppa := by
  induction pages generalizing s tree with
  | nil => exact ⟨rfl, rfl⟩
  | cons page pages ih =>
      have hpath := hpages page (List.mem_cons_self ..)
      obtain ⟨pt, hmap⟩ := map_reuse ppaRequest h (hpath ▸ hexists) page
      have hframes : (pmmMapMemory ppaRequest s page page).frames = s.frames := by
        rw [hmap, frames_set_leaf]
      have hppa : (pmmMapMemory ppaRequest s page page).ppa = s.ppa := by
        rw [hmap, pmmSetLeaf]
      obtain ⟨larger, hlarger, hextends, -, -⟩ :=
        map_represents h
          (hframes.symm ▸ h.fresh : FreshFrames _ (pmmMapMemory _ _ page page).frames)
      obtain ⟨hrest, hrestppa⟩ := ih hlarger (hextends.isSome hexists)
        fun other hother => hpages other (List.mem_cons_of_mem page hother)
      exact ⟨hrest.trans hframes, hrestppa.trans hppa⟩

/-- All addresses below 2 MiB share their last table. -/
theorem table_path_low {page : BitVec 64} (hpage : page.toNat < 2 ^ 21) :
    tablePath page = tablePath 0 := by
  unfold tablePath
  simp only [List.cons.injEq, and_true, ← BitVec.toNat_inj, pmm_index_to_nat]
  have hzero : (0 : BitVec 64).toNat = 0 := rfl
  omega

/-- Frames 256 to 287 are taken up to `n`, and the hint is in their word. -/
structure ReadyAt (n : Nat) (ppa : PpaState) : Prop where
  sized : ppa.Sized
  hint : ppa.hintWord = 8
  size : 8 < ppa.bitmap.size.toNat
  tracked : ∀ i < 288, ppa.Tracked i
  taken : ∀ i, 256 ≤ i → i < 288 → (ppa.bit i = true ↔ i < n)

/-- A request takes the first free frame of the word. -/
theorem ready_request {n : Nat} {ppa : PpaState} (hlow : 256 ≤ n) (hhigh : n < 288)
    (h : ReadyAt n ppa) : (ppaRequest ppa).1 = pageAt n ∧ ReadyAt (n + 1) (ppaRequest ppa).2 := by
  have hclear : ppa.bit n = false := by
    have htaken := h.taken n hlow hhigh
    simpa using htaken
  have hfree : ppa.FreeAtHint := by
    have hhint := h.hint
    have hsize := h.size
    exact ⟨n, h.tracked n hhigh, by omega, by omega, hclear⟩
  obtain ⟨hfull, -⟩ | ⟨-, index, htracked, hbit, hword, hbefore, haddr, hstate⟩ |
    ⟨-, hnone, -⟩ := ppa_request_cases h.sized
  · exact absurd hfree hfull.not_free
  -- the frames below `n` are taken, and the scan meets `n` before any frame above it
  · have hindex : index.toNat = n := by
      have hhint := h.hint
      by_contra hne
      rcases Nat.lt_or_gt_of_ne hne with hlt | hgt
      · have htaken := (h.taken index.toNat (by omega) (by omega)).mpr hlt
        rw [hbit] at htaken
        cases htaken
      · have hset := hbefore n (by omega) hgt
        rw [hclear] at hset
        cases hset
    have hfixed := ppa_request_fixed (s := ppa)
    have hsize := size_of_fixed hfixed
    refine ⟨BitVec.eq_of_toNat_eq ?_, ?_, ?_, ?_, ?_, ?_⟩
    · rw [haddr, page_at_to_nat (by omega), hindex]
    · unfold Sized
      rw [hsize]
      exact h.sized
    · rw [hstate, hintWord, charge_last_hit, ppa_bitmap_set_last_hit, hindex]
      omega
    · rw [hsize]
      exact h.size
    · intro i hi
      exact (tracked_of_fixed hfixed i).mpr (h.tracked i hi)
    · intro i hilow hihigh
      rw [hstate, charge_bit, bit_ppa_bitmap_set, hindex]
      have htaken := h.taken i hilow hihigh
      by_cases hsame : i = n
      · subst hsame
        rw [hindex] at htracked
        have hset : Tracked { ppa with lastHit := index } i ∧ i = i := ⟨htracked, rfl⟩
        simp [hset]
      · have hkept : ¬ (Tracked { ppa with lastHit := index } n ∧ i = n) := fun hboth =>
          hsame hboth.2
        rw [if_neg hkept]
        exact htaken.trans ⟨fun hlt => Nat.lt_succ_of_lt hlt, fun hlt => by omega⟩
  · exact absurd hfree hnone

/-! ## A map with a gap -/

/-- 64 conventional pages at 1 MiB and 256 reserved pages at 1 GiB. -/
def gapMap : List EfiMemoryDescriptor :=
  [⟨EfiMemoryType.EfiReservedMemoryType.value, 0x40000000, 0x100⟩,
    ⟨EfiMemoryType.EfiConventionalMemory.value, 0x100000, 64⟩]

/-- The descriptors of the example do not overlap. -/
theorem disjoint_gap_map : DisjointMap gapMap := by
  constructor
  case aligned => decide
  case low => decide
  case disjoint =>
    rw [gapMap, List.pairwise_pair]
    intro addr hboth
    obtain ⟨⟨hlow, -⟩, -, hhigh⟩ := hboth
    have hstart : (0x40000000 : BitVec 64).toNat ≤ addr := hlow
    have hend : addr < (0x100000 : BitVec 64).toNat + 4096 * (64 : BitVec 64).toNat := hhigh
    simp only [BitVec.ofNat_eq_ofNat, BitVec.toNat_ofNat] at hstart hend
    omega

/-- Without a call there is only `ppa_init`. -/
theorem ppa_reach_nil (words : Nat → BitVec 32) (mmap reread : List EfiMemoryDescriptor) :
    ppaReach words mmap reread [] = ppaInit (ppaBoot words) mmap reread :=
  rfl

/-- The second walk skips a reserved descriptor. -/
theorem unreserve_reserved (s : PpaState) (start pages : BitVec 64) :
    unreserveDescriptor s ⟨EfiMemoryType.EfiReservedMemoryType.value, start, pages⟩ = s := by
  have hvalue : EfiMemoryType.EfiReservedMemoryType.value ≠
      EfiMemoryType.EfiConventionalMemory.value := by decide
  rw [unreserveDescriptor, if_neg]
  exact hvalue

/-- `ppa_init` does not look at the address of a reserved descriptor. -/
theorem ppa_init_gap_map (words : Nat → BitVec 32) :
    ppaInit (ppaBoot words) gapMap gapMap = ppaInit (ppaBoot words) (lowMap 64) (lowMap 64) := by
  have hscan : scanMap gapMap = scanMap (lowMap 64) := by decide
  have hreread : ∀ s, gapMap.foldl unreserveDescriptor s =
      (lowMap 64).foldl unreserveDescriptor s := by
    intro s
    simp only [gapMap, lowMap, List.foldl_cons, List.foldl_nil, unreserve_reserved]
  rw [ppaInit, ppaInit, hscan]
  simp only [hreread]

/-- After `ppa_init` on the map with a gap the next request takes frame 257. -/
theorem ready_gap_map (words : Nat → BitVec 32) :
    ReadyAt 257 (ppaReach words gapMap gapMap []) := by
  have hreach := (ppa_reach_nil words gapMap gapMap).trans (ppa_init_gap_map words)
  constructor
  case sized => exact ppa_reach_sized words gapMap gapMap []
  case hint =>
    rw [hreach, hintWord, last_hit_low_map words (.inr rfl)]
    rfl
  case size =>
    rw [ppa_reach_size words gapMap [] (by decide)]
    decide
  case tracked =>
    intro i hi
    rw [hreach, tracked_low_map]
    omega
  case taken =>
    intro i hlow hhigh
    rw [hreach, bit_low_map words (.inr rfl) (Nat.lt_trans hhigh (by decide))]
    omega

/-- The pages that `init_pmm` maps on the map with a gap and a framebuffer of one page. -/
theorem init_pages_gap_map {total : BitVec 64} (htotal : total.toNat = 4096 * pageCount gapMap) :
    initPages total 0x80000000 4096 = 0 :: (pagesFrom 4096 319 ++ [0x80000000]) := by
  have hcount : pageCount gapMap = 320 := by decide
  have hend : (0x140000 : BitVec 64).toNat = 4096 * 320 := by decide
  have hsame : total = 0x140000 := BitVec.eq_of_toNat_eq (by rw [htotal, hcount, hend])
  have hlow : rounds 0 0x140000 = 319 + 1 := by decide
  have hhigh : rounds 0x80000000 (0x80000000 + 4096) = 0 + 1 := by decide
  have hnext : (0 : BitVec 64) + 4096 = 4096 := by decide
  have hfirst : pagesFrom 0 (319 + 1) = 0 :: pagesFrom 4096 319 := by
    rw [pages_from_succ, hnext]
  have hsecond : pagesFrom 0x80000000 (0 + 1) = [0x80000000] := by
    rw [pages_from_succ, pages_from_zero]
  rw [initPages, hsame, hlow, hhigh, hfirst, hsecond, List.cons_append]

/-- All requests of `init_pmm` are answered with fresh pages: one for the root table, three for the
pages below 2 MiB, and at most three for the page of the framebuffer. -/
theorem fresh_ready {ppa : PpaState} (hready : ReadyAt 257 ppa)
    (htotal : ppa.memTotal.toNat = 4096 * pageCount gapMap) (mem : ByteMemory) :
    FreshAnswers
      { pmm := initReach mem ppa 0x80000000 4096, cr3 := (ppaRequest ppa).1 } := by
  have hrequest : ∀ n ppa, n < 288 → ReadyAt n ppa ∧ 256 ≤ n →
      (ppaRequest ppa).1 = pageAt n ∧ ReadyAt (n + 1) (ppaRequest ppa).2 ∧ 256 ≤ n + 1 := by
    rintro n ppa hn ⟨hreadyn, hlow⟩
    obtain ⟨hpage, hnext⟩ := ready_request hlow hn hreadyn
    exact ⟨hpage, hnext, by omega⟩
  obtain ⟨hroot, hafter⟩ := ready_request (by decide) (by decide) hready
  have hstart : Handed (fun n ppa => ReadyAt n ppa ∧ 256 ≤ n) 258 0 (initStart mem ppa) :=
    ⟨by rw [init_start_ppa]; exact ⟨hafter, by decide⟩, init_start_frames mem ppa⟩
  have haligned : PageAligned (ppaRequest ppa).1 := by
    rw [hroot]
    decide
  have hempty := init_start_represents haligned mem
  -- the first call creates the tables of all pages below 2 MiB
  obtain ⟨first, hfirst, hhanded⟩ := handed_map hrequest hstart (by decide) 0 0
  have hfresh := handed_fresh hhanded 257 (by decide) (by omega)
  rw [← hroot] at hfresh
  obtain ⟨tree, hrep, -, hexists, -⟩ := map_represents hempty hfresh
  have hlow : ∀ page ∈ pagesFrom 4096 319, tablePath page = tablePath 0 := by
    intro page hpage
    obtain ⟨k, hk, haddr⟩ := (mem_pages_from (by decide)).mp hpage
    have hbase : (4096 : BitVec 64).toNat = 4096 := rfl
    exact table_path_low (by omega)
  obtain ⟨hframes, hppa⟩ := identity_reuse hrep hexists hlow
  have hkept : Handed (fun n ppa => ReadyAt n ppa ∧ 256 ≤ n) 258 (0 + first)
      (Runs.run (pmmStep ppaRequest) (pmmMapMemory ppaRequest (initStart mem ppa) 0 0)
        (identityOps (pagesFrom 4096 319))) :=
    ⟨by rw [hppa]; exact hhanded.ready, hframes.trans hhanded.frames⟩
  -- the page of the framebuffer is the last call
  obtain ⟨last, hlast, hend⟩ := handed_map hrequest hkept (by omega) 0x80000000 0x80000000
  have hreach : initReach mem ppa 0x80000000 4096 = pmmMapMemory ppaRequest
      (Runs.run (pmmStep ppaRequest) (pmmMapMemory ppaRequest (initStart mem ppa) 0 0)
        (identityOps (pagesFrom 4096 319))) 0x80000000 0x80000000 := by
    rw [init_reach_eq_run, init_pages_gap_map htotal, run_identity_cons, run_identity_append,
      run_identity_cons, run_identity_nil]
  have hpml4 : (initReach mem ppa 0x80000000 4096).pml4 = pageAt 257 := by
    rw [init_reach_eq_run, pml4_run, init_start_pml4, hroot]
  have hall := handed_fresh hend 257 (by decide) (by omega)
  rw [← hreach] at hall
  constructor
  case nodup =>
    rw [hpml4, List.nodup_cons]
    exact ⟨fun hmem => hall.ne_pml4 _ hmem rfl, hall.nodup⟩
  case ne_zero =>
    rw [hpml4, List.forall_mem_cons]
    exact ⟨by decide, hall.ne_zero⟩
  case aligned =>
    rw [hpml4, List.forall_mem_cons]
    exact ⟨by decide, hall.aligned⟩

/-- What `init_pmm` leaves on the map with a gap. -/
theorem init_pmm_gap_map (words : Nat → BitVec 32) (mem : ByteMemory) {fuel : Nat}
    (hfuel : 2 ^ 36 ≤ fuel) :
    ∃ after, initPmm fuel (kernelBoot mem (ppaReach words gapMap gapMap [])) 0x80000000 4096 =
      some after ∧ FreshAnswers after ∧ pmmFindPaddr after.pmm 0x40000000 = 0 := by
  obtain ⟨htotal, hshort⟩ := reach_mem_total words gapMap [] disjoint_gap_map
  have hpages := disjoint_map_pages disjoint_gap_map
  have hfresh := fresh_ready (ready_gap_map words) htotal mem
  have hpage : PageAligned 0x40000000 := by decide
  have hlow : (0x40000000 : BitVec 64).toNat < 2 ^ 48 := by decide
  have hfind := find_init_reach hshort (by omega) (by decide) (by decide) mem hfresh hpage hlow
  refine ⟨_, init_pmm_eq_reach hshort (by omega) (by decide) mem hfuel, hfresh, ?_⟩
  rw [hfind, htotal, if_neg]
  decide

/-- The map of the example describes the page behind its gap. -/
theorem described_gap_map : Described gapMap 0x40000000 := by
  refine ⟨⟨EfiMemoryType.EfiReservedMemoryType.value, 0x40000000, 0x100⟩,
    List.mem_cons_self .., ?_⟩
  constructor <;> decide

/-- On the map with a gap and a framebuffer of one page, not everything is mapped. -/
theorem gap_map_not_all_mapped :
    ∃ after, initPmm (2 ^ 36) (kernelBoot (fun _ => 0)
        (ppaReach (fun _ => 0) gapMap gapMap [])) 0x80000000 4096 = some after ∧
      ¬ ∀ page, PageAligned page →
        Described gapMap page ∨ InFramebuffer 0x80000000 4096 page →
          pmmFindPaddr after.pmm page = page := by
  have hbase : PageAligned 0x80000000 := by decide
  have hend : (0x80000000 : BitVec 64).toNat + (4096 : BitVec 64).toNat ≤ 2 ^ 48 := by decide
  obtain ⟨after, hinit, hiff⟩ := described_memory_mapped_iff (fun _ => 0) (fun _ => 0) gapMap []
    disjoint_gap_map hbase hend (Nat.le_refl _)
  obtain ⟨other, hother, hfresh, -⟩ := init_pmm_gap_map (fun _ => 0) (fun _ => 0) (Nat.le_refl _)
  obtain rfl : after = other := Option.some.inj (hinit.symm.trans hother)
  refine ⟨after, hinit, ?_⟩
  rw [hiff hfresh]
  intro hcovered
  have hpage := hcovered 0x40000000 (by decide) described_gap_map
  revert hpage
  decide

/-- On the map with a gap all requests are answered with fresh pages, and a page that the firmware
described is not mapped to itself. -/
theorem described_page_not_mapped :
    DisjointMap gapMap ∧ Described gapMap 0x40000000 ∧
      ∃ after, initPmm (2 ^ 36) (kernelBoot (fun _ => 0)
          (ppaReach (fun _ => 0) gapMap gapMap [])) 0x80000000 4096 = some after ∧
        FreshAnswers after ∧ pmmFindPaddr after.pmm 0x40000000 ≠ 0x40000000 := by
  obtain ⟨after, hinit, hfresh, hfind⟩ :=
    init_pmm_gap_map (fun _ => 0) (fun _ => 0) (Nat.le_refl _)
  refine ⟨disjoint_gap_map, described_gap_map, after, hinit, hfresh, ?_⟩
  rw [hfind]
  decide

end SiStultum
