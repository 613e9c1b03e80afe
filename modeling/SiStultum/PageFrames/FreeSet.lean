import SiStultum.PageFrames.Counters

/-!
# The free frames after `ppa_init`

`ppa_init` reserves every frame, releases the conventional descriptors, reserves the
first 256 frames again and locks the frames of the bitmap. `bit_ppa_locked` follows one
bit through the four passes, and `ppa_init_free_set` states the result for the memory
maps whose arithmetic stays in range, in terms of the descriptors alone.
-/

namespace SiStultum

open PpaState Counting

/-! ## What the first walk of the map finds -/

/-- The number of pages the map describes. -/
def pageCount (mmap : List EfiMemoryDescriptor) : Nat :=
  (mmap.map fun desc => desc.numberofpages.toNat).sum

/-- No descriptor has more pages than the map. -/
theorem pages_le_count {mmap : List EfiMemoryDescriptor} {desc : EfiMemoryDescriptor}
    (hdesc : desc ∈ mmap) : desc.numberofpages.toNat ≤ pageCount mmap := by
  obtain ⟨front, back, rfl⟩ := List.append_of_mem hdesc
  simp only [pageCount, List.map_append, List.map_cons, List.sum_append, List.sum_cons]
  omega

/-- The descriptor is the first of the largest conventional ones. -/
def FirstLargest (mmap : List EfiMemoryDescriptor) (desc : EfiMemoryDescriptor) : Prop :=
  ∃ before after, mmap = before ++ desc :: after ∧ desc.Conventional ∧
    0 < desc.numberofpages.toNat ∧
    (∀ d ∈ before, d.Conventional → d.numberofpages.toNat < desc.numberofpages.toNat) ∧
    (∀ d ∈ after, d.Conventional → d.numberofpages.toNat ≤ desc.numberofpages.toNat)

/-- The descriptors are page-aligned, do not wrap past `2 ^ 64` and have fewer than `2 ^ 19` pages
each. -/
structure WellFormedMap (mmap : List EfiMemoryDescriptor) : Prop where
  aligned : ∀ desc ∈ mmap, desc.physicalstart.toNat % 4096 = 0
  no_wrap : ∀ desc ∈ mmap, desc.physicalstart.toNat + 4096 * desc.numberofpages.toNat ≤ 2 ^ 64
  short : ∀ desc ∈ mmap, desc.numberofpages.toNat < 2 ^ 19

/-- The size of a descriptor in bytes does not wrap around. -/
theorem pages_size {pages : BitVec 64} (h : pages.toNat < 2 ^ 52) :
    (pages * 4096).toNat = 4096 * pages.toNat := by
  bv_omega

/-- Without overflow the total is the size of all pages. -/
theorem scan_total_eq {mmap : List EfiMemoryDescriptor} (h : pageCount mmap < 2 ^ 52) :
    (scanMap mmap).memTotal.toNat = 4096 * pageCount mmap := by
  have hloop : ∀ scan : MapScan, scan.memTotal.toNat + 4096 * pageCount mmap < 2 ^ 64 →
      (mmap.foldl MapScan.next scan).memTotal.toNat =
        scan.memTotal.toNat + 4096 * pageCount mmap := by
    clear h
    induction mmap with
    | nil =>
        intro scan _
        simp [pageCount]
    | cons desc mmap ih =>
        intro scan hbound
        simp only [pageCount, List.map_cons, List.sum_cons] at hbound ih ⊢
        have hnext : (scan.next desc).memTotal.toNat =
            scan.memTotal.toNat + 4096 * desc.numberofpages.toNat := by
          rw [scan_next_mem_total]
          bv_omega
        rw [List.foldl_cons, ih (scan.next desc) (by omega)]
        omega
  rw [scanMap, hloop ⟨0, 0, 0⟩ (by simp; omega)]
  simp

/-- A walk over smaller conventional descriptors stays below the largest one. -/
theorem scan_size_lt {mmap : List EfiMemoryDescriptor} {n : Nat}
    (hshort : ∀ d ∈ mmap, d.numberofpages.toNat < 2 ^ 52)
    (hless : ∀ d ∈ mmap, d.Conventional → d.numberofpages.toNat < n) (scan : MapScan)
    (h : scan.largestSize.toNat < 4096 * n) :
    (mmap.foldl MapScan.next scan).largestSize.toNat < 4096 * n := by
  induction mmap generalizing scan with
  | nil => exact h
  | cons desc mmap ih =>
      refine ih (fun d hd => hshort d (by simp [hd])) (fun d hd => hless d (by simp [hd])) _ ?_
      have hsize := pages_size (hshort desc (by simp))
      simp only [MapScan.next]
      split
      · next hlarger =>
          have hpages := hless desc (by simp) hlarger.1
          simp only [hsize]
          omega
      · exact h

/-- A walk over conventional descriptors that are not larger keeps the segment. -/
theorem scan_segment_kept {mmap : List EfiMemoryDescriptor} {n : Nat}
    (hshort : ∀ d ∈ mmap, d.numberofpages.toNat < 2 ^ 52)
    (hle : ∀ d ∈ mmap, d.Conventional → d.numberofpages.toNat ≤ n) (scan : MapScan)
    (h : scan.largestSize.toNat = 4096 * n) :
    (mmap.foldl MapScan.next scan).largestSegment = scan.largestSegment := by
  induction mmap generalizing scan with
  | nil => rfl
  | cons desc mmap ih =>
      have hsize := pages_size (hshort desc (by simp))
      have hsame : ¬ (desc.Conventional ∧ desc.numberofpages * 4096 > scan.largestSize) := by
        rintro ⟨hconventional, hlarger⟩
        have hpages := hle desc (by simp) hconventional
        bv_omega
      have hnext : scan.next desc =
          { scan with memTotal := scan.memTotal + desc.numberofpages * 4096 } := by
        simp only [MapScan.next, if_neg hsame]
      rw [List.foldl_cons, hnext]
      exact ih (fun d hd => hshort d (by simp [hd])) (fun d hd => hle d (by simp [hd])) _ h

/-- The first walk picks the first of the largest conventional descriptors. -/
theorem scan_segment_eq {mmap : List EfiMemoryDescriptor} {desc : EfiMemoryDescriptor}
    (hshort : ∀ d ∈ mmap, d.numberofpages.toNat < 2 ^ 52) (h : FirstLargest mmap desc) :
    (scanMap mmap).largestSegment = desc.physicalstart := by
  obtain ⟨before, after, rfl, hconventional, hpos, hbefore, hafter⟩ := h
  have hlt := scan_size_lt (fun d hd => hshort d (by simp [hd])) hbefore ⟨0, 0, 0⟩ (by simpa)
  have hsize := pages_size (hshort desc (by simp))
  set scan := before.foldl MapScan.next ⟨0, 0, 0⟩ with hscan
  have hlarger : desc.Conventional ∧ desc.numberofpages * 4096 > scan.largestSize :=
    ⟨hconventional, by bv_omega⟩
  have hnext : scan.next desc =
      ⟨scan.memTotal + desc.numberofpages * 4096, desc.physicalstart,
        desc.numberofpages * 4096⟩ := by
    simp only [MapScan.next, if_pos hlarger]
  rw [scanMap, List.foldl_append, List.foldl_cons, ← hscan, hnext]
  exact scan_segment_kept (fun d hd => hshort d (by simp [hd])) hafter _ hsize

/-! ## One bit through the four passes -/

/-- The conventional loop clears the tracked frames of the conventional descriptors. -/
theorem bit_unreserve {reread : List EfiMemoryDescriptor}
    (hshort : ∀ desc ∈ reread, desc.numberofpages.toNat < 2 ^ 19) (s : PpaState) (j : Nat) :
    (reread.foldl unreserveDescriptor s).bit j = true ↔
      s.bit j = true ∧ ¬ (s.Tracked j ∧ ∃ desc ∈ reread, desc.Conventional ∧
        Covers desc.physicalstart desc.numberofpages.toNat j) := by
  induction reread generalizing s with
  | nil => simp
  | cons desc reread ih =>
      rw [List.foldl_cons, ih (fun d hd => hshort d (by simp [hd]))]
      have htracked : (unreserveDescriptor s desc).Tracked j ↔ s.Tracked j :=
        tracked_of_fixed (unreserve_fixed [desc] s) j
      have hbit : (unreserveDescriptor s desc).bit j = true ↔ s.bit j = true ∧
          ¬ (s.Tracked j ∧ desc.Conventional ∧
            Covers desc.physicalstart desc.numberofpages.toNat j) := by
        by_cases hconventional : desc.Conventional
        · simp only [unreserveDescriptor, hconventional, ↓reduceIte, true_and]
          exact bit_release_n (Nat.le_of_lt (hshort desc (by simp))) j
        · simp [unreserveDescriptor, hconventional]
      rw [htracked, hbit]
      simp only [List.mem_cons, exists_eq_or_imp, and_or_left, not_or, and_assoc]

/-- A conventional descriptor leaves the hint at its first frame. -/
theorem unreserve_last_hit {s : PpaState} {desc : EfiMemoryDescriptor} (h : desc.Conventional)
    (hshort : desc.numberofpages.toNat ≤ 2 ^ 19) :
    (unreserveDescriptor s desc).lastHit = desc.physicalstart / 4096 := by
  rw [unreserveDescriptor, if_pos h, ppaUrsvn, release_n_eq, if_pos hshort]
  rfl

section Passes

variable (words : Nat → BitVec 32) {mmap reread : List EfiMemoryDescriptor}

/-- One tracked bit after the four passes. -/
theorem bit_ppa_locked (hmin : 0 < totalPages mmap) (hmax : totalPages mmap < 2 ^ 36)
    (hshort : ∀ desc ∈ reread, desc.numberofpages.toNat < 2 ^ 19) {j : Nat}
    (hj : j < totalPages mmap) :
    (ppaLocked words mmap reread).bit j = true ↔
      (¬ ∃ desc ∈ reread, desc.Conventional ∧
        Covers desc.physicalstart desc.numberofpages.toNat j) ∨
      j < 0x100 ∨
      Covers (scanMap mmap).largestSegment
        (bitmapPages ((scanMap mmap).memTotal / 4096 / 32 + 1)).toNat j := by
  have hfixed := ppa_low_reserved_fixed words mmap reread
  have hgeometry := ppa_cleared_fixed words mmap
  simp only [fixed, Prod.mk.injEq] at hgeometry
  have htracked : ∀ {t : PpaState}, t.fixed = (ppaCleared words mmap).fixed → t.Tracked j :=
    fun h => (tracked_of_total words hmin h j).mpr hj
  -- the first pass reserves all pages
  have hreserved : (ppaReserved words mmap).bit j = true := by
    have hcount : ((scanMap mmap).memTotal / 4096).toNat = totalPages mmap := rfl
    refine (bit_acquire_loop _ j).mpr (.inr ⟨htracked rfl, ?_⟩)
    rw [hcount, covers_iff_of_no_wrap (by simp; omega)]
    simpa [frameOf] using hj
  -- the loop over the reread map frees the conventional ones
  have hunreserved : (ppaUnreserved words mmap reread).bit j = true ↔
      ¬ ∃ desc ∈ reread, desc.Conventional ∧
        Covers desc.physicalstart desc.numberofpages.toNat j := by
    rw [ppaUnreserved, bit_unreserve hshort]
    simp [hreserved, htracked (ppa_reserved_fixed words mmap)]
  -- the first megabyte is taken again
  have hlow : (ppaLowReserved words mmap reread).bit j = true ↔
      (ppaUnreserved words mmap reread).bit j = true ∨ j < 0x100 := by
    refine (bit_acquire_loop _ j).trans ?_
    rw [covers_iff_of_no_wrap (by simp)]
    simp [htracked (ppa_unreserved_fixed words mmap reread), frameOf]
  -- and last the pages of the bitmap are locked
  refine (bit_acquire_loop _ j).trans ?_
  rw [hlow, hunreserved, data_of_fixed hfixed, size_of_fixed hfixed, hgeometry.1, hgeometry.2.2.1]
  simp [htracked hfixed, or_assoc]

/-! ## The two accounts -/

/-- A reservation keeps `mem_used`. -/
theorem acquire_rsvd_mem_used (s : PpaState) (addr : BitVec 64) :
    (acquire .rsvd s addr).memUsed = s.memUsed := by
  have hset := ppa_bitmap_set_counters (s := s) (addr / 4096) true
  simp only [counters, Prod.mk.injEq] at hset
  obtain ⟨_, _, h⟩ | ⟨_, _, h⟩ | ⟨_, h⟩ := acquire_cases .rsvd s addr
  · rw [h]
  · rw [h, charge_rsvd_mem_used, hset.1]
  · rw [h, charge_rsvd_mem_used]

/-- A lock keeps `mem_rsvd`. -/
theorem acquire_used_mem_rsvd (s : PpaState) (addr : BitVec 64) :
    (acquire .used s addr).memRsvd = s.memRsvd := by
  have hset := ppa_bitmap_set_counters (s := s) (addr / 4096) true
  simp only [counters, Prod.mk.injEq] at hset
  obtain ⟨_, _, h⟩ | ⟨_, _, h⟩ | ⟨_, h⟩ := acquire_cases .used s addr
  · rw [h]
  · rw [h, charge_used_mem_rsvd, hset.2.1]
  · rw [h, charge_used_mem_rsvd]

/-- The end of a reservation keeps `mem_used`. -/
theorem release_rsvd_mem_used (s : PpaState) (addr : BitVec 64) :
    (release .rsvd s addr).memUsed = s.memUsed := by
  have hset := ppa_bitmap_set_counters (s := s) (addr / 4096) false
  simp only [counters, Prod.mk.injEq] at hset
  obtain ⟨_, _, h⟩ | ⟨_, h⟩ := release_cases .rsvd s addr
  · rw [h, ← hset.1]
    exact refund_rsvd_mem_used _
  · rw [h]

/-- A ranged reservation keeps `mem_used`. -/
theorem acquire_loop_rsvd_mem_used (s : PpaState) (addr : BitVec 64) (n : Nat) :
    (acquireLoop .rsvd s addr n).memUsed = s.memUsed := by
  induction n generalizing s addr with
  | zero => rfl
  | succ n ih => rw [acquireLoop, ih, acquire_rsvd_mem_used]

/-- A ranged lock keeps `mem_rsvd`. -/
theorem acquire_loop_used_mem_rsvd (s : PpaState) (addr : BitVec 64) (n : Nat) :
    (acquireLoop .used s addr n).memRsvd = s.memRsvd := by
  induction n generalizing s addr with
  | zero => rfl
  | succ n ih => rw [acquireLoop, ih, acquire_used_mem_rsvd]

/-- The second walk keeps `mem_used`. -/
theorem unreserve_mem_used (reread : List EfiMemoryDescriptor) (s : PpaState) :
    (reread.foldl unreserveDescriptor s).memUsed = s.memUsed := by
  induction reread generalizing s with
  | nil => rfl
  | cons desc reread ih =>
      rw [List.foldl_cons, ih, unreserveDescriptor]
      split
      · exact proceed_release_n (fun t : PpaState => t.memUsed = s.memUsed)
          (fun t _ ht => (release_rsvd_mem_used t _).trans ht) (fun _ _ ht => ht) id rfl
      · rfl

/-- Nothing is counted as used before the frames of the bitmap are locked. -/
theorem ppa_low_reserved_mem_used (words : Nat → BitVec 32)
    (mmap reread : List EfiMemoryDescriptor) :
    (ppaLowReserved words mmap reread).memUsed = 0 := by
  have hcleared := ppa_cleared_counters words mmap
  simp only [counters, Prod.mk.injEq] at hcleared
  have hreserved : (ppaReserved words mmap).memUsed = 0 :=
    (acquire_loop_rsvd_mem_used _ _ _).trans hcleared.1
  have hunreserved : (ppaUnreserved words mmap reread).memUsed = 0 :=
    (unreserve_mem_used reread _).trans hreserved
  exact (acquire_loop_rsvd_mem_used _ _ _).trans hunreserved

variable (reread) in
/-- After `ppa_init` the three counters add up to the total without overflow. -/
theorem ppa_locked_sum (hmin : 256 ≤ totalPages mmap) (hmax : totalPages mmap < 2 ^ 36)
    (hbitmap : BitmapTracked mmap) :
    (ppaLocked words mmap reread).memUsed.toNat + (ppaLocked words mmap reread).memRsvd.toNat +
        (ppaLocked words mmap reread).memFree.toNat = (scanMap mmap).memTotal.toNat ∧
      (ppaLocked words mmap reread).memFree.toNat =
        4096 * countFalse (ppaLocked words mmap reread).bit (totalPages mmap) := by
  have hlow := counted_ppa_low_reserved words reread hmin hmax
  have hlocked := counted_ppa_locked words reread hmin hmax hbitmap
  have hused := ppa_low_reserved_mem_used words mmap reread
  have hrsvd : (ppaLocked words mmap reread).memRsvd =
      (ppaLowReserved words mmap reread).memRsvd := acquire_loop_used_mem_rsvd _ _ _
  have hframesLow := frames_of_total words (by omega) (ppa_low_reserved_fixed words mmap reread)
  have hframes := frames_of_total words (by omega) (ppa_locked_fixed words mmap reread)
  -- `mem_rsvd` keeps its value from before the last pass, which only takes more frames
  have hmono : (ppaLowReserved words mmap reread).takenFrames ≤
      (ppaLocked words mmap reread).takenFrames := by
    rw [takenFrames, takenFrames, hframes, hframesLow]
    exact count_true_mono (fun i _ hset => (bit_acquire_loop _ i).mpr (.inl hset))
  have hall := count_true_add_false (ppaLocked words mmap reread).bit
    (ppaLocked words mmap reread).frames
  rw [← takenFrames, ← freeFrames, hframes] at hall
  have htakenLow := hlow.taken
  have htaken := hlocked.taken
  have hfree := hlocked.free
  rw [hused] at htakenLow
  have haligned := scan_total_aligned mmap
  have hcount : countFalse (ppaLocked words mmap reread).bit (totalPages mmap) =
      (ppaLocked words mmap reread).freeFrames := by
    rw [freeFrames, hframes]
  rw [hcount]
  have htotal : (scanMap mmap).memTotal.toNat = 4096 * totalPages mmap := by
    unfold totalPages
    omega
  have hrsvdEq : (ppaLocked words mmap reread).memRsvd.toNat =
      4096 * (ppaLowReserved words mmap reread).takenFrames := by
    rw [hrsvd]
    bv_omega
  have hfreeEq : (ppaLocked words mmap reread).memFree.toNat =
      4096 * (ppaLocked words mmap reread).freeFrames := by
    rw [hfree, BitVec.toNat_ofNat]
    omega
  have husedEq : (ppaLocked words mmap reread).memUsed.toNat +
      (ppaLocked words mmap reread).memRsvd.toNat =
        4096 * (ppaLocked words mmap reread).takenFrames := by
    have hsum := congrArg BitVec.toNat htaken
    rw [BitVec.toNat_add, BitVec.toNat_ofNat] at hsum
    have hlt := (ppaLocked words mmap reread).memUsed.isLt
    omega
  exact ⟨by omega, hfreeEq⟩

end Passes

/-! ## Two small maps -/

section LowMap

variable (words : Nat → BitVec 32) {n : BitVec 64} (hn : n = 1 ∨ n = 64)
include hn

/-- After `ppa_init` on a small map the frames up to the one that holds the bitmap are taken. -/
theorem bit_low_map {i : Nat} (hi : i < 256 + n.toNat) :
    (ppaInit (ppaBoot words) (lowMap n) (lowMap n)).bit i = true ↔ i ≤ 256 := by
  have haccepted : Accepted (lowMap n) := by
    rcases hn with rfl | rfl <;> decide
  have htotal : totalPages (lowMap n) = 256 + n.toNat := by
    rcases hn with rfl | rfl <;> decide
  have hshort : ∀ desc ∈ lowMap n, desc.numberofpages.toNat < 2 ^ 19 := by
    rcases hn with rfl | rfl <;> decide
  have hsegment : (scanMap (lowMap n)).largestSegment = 0x100000 := by
    rcases hn with rfl | rfl <;> decide
  have hbitmap : (bitmapPages ((scanMap (lowMap n)).memTotal / 4096 / 32 + 1)).toNat = 1 := by
    rcases hn with rfl | rfl <;> decide
  have hsmall : n.toNat ≤ 64 := by
    rcases hn with rfl | rfl <;> decide
  have hframe : frameOf 0x100000 = 256 := by decide
  have haddr : (0x100000 : BitVec 64).toNat = 0x100000 := by decide
  have hbit := bit_ppa_locked words (by omega) (by omega) hshort (htotal ▸ hi)
  rw [hsegment, hbitmap, covers_iff_of_no_wrap (by rw [haddr]; omega), hframe] at hbit
  have hconventional : (∃ desc ∈ lowMap n, desc.Conventional ∧
      Covers desc.physicalstart desc.numberofpages.toNat i) ↔ 256 ≤ i := by
    have hreserved : ¬ EfiMemoryDescriptor.Conventional
        ⟨EfiMemoryType.EfiReservedMemoryType.value, 0, 0x100⟩ := by decide
    have hfree : EfiMemoryDescriptor.Conventional
        ⟨EfiMemoryType.EfiConventionalMemory.value, 0x100000, n⟩ := rfl
    simp only [lowMap, List.mem_cons, List.not_mem_nil, or_false, exists_eq_or_imp,
      exists_eq_left, hreserved, hfree, false_and, true_and, false_or]
    rw [covers_iff_of_no_wrap (by rw [haddr]; omega), hframe]
    omega
  rw [hconventional] at hbit
  rw [ppa_init_accepted words (lowMap n) haccepted, bit_initialized, hbit]
  omega

/-- After `ppa_init` on a small map the hint is the start of its conventional descriptor. -/
theorem last_hit_low_map :
    (ppaInit (ppaBoot words) (lowMap n) (lowMap n)).lastHit = 256 := by
  have haccepted : Accepted (lowMap n) := by
    rcases hn with rfl | rfl <;> decide
  have hlocked : (ppaLocked words (lowMap n) (lowMap n)).lastHit =
      (ppaUnreserved words (lowMap n) (lowMap n)).lastHit :=
    (acquire_loop_last_hit _).trans (acquire_loop_last_hit _)
  have hunreserved : ppaUnreserved words (lowMap n) (lowMap n) =
      unreserveDescriptor (unreserveDescriptor (ppaReserved words (lowMap n))
        ⟨EfiMemoryType.EfiReservedMemoryType.value, 0, 0x100⟩)
        ⟨EfiMemoryType.EfiConventionalMemory.value, 0x100000, n⟩ := rfl
  have hconventional : EfiMemoryDescriptor.Conventional
      ⟨EfiMemoryType.EfiConventionalMemory.value, 0x100000, n⟩ := rfl
  have hshort : n.toNat ≤ 2 ^ 19 := by
    rcases hn with rfl | rfl <;> decide
  rw [ppa_init_accepted words (lowMap n) haccepted, last_hit_initialized, hlocked, hunreserved,
    unreserve_last_hit hconventional hshort]
  change (0x100000 : BitVec 64) / 4096 = 256
  decide

end LowMap

/-! ## The free set in terms of the descriptors -/

/-- Frame `i` holds a byte of a bitmap for `pages` pages stored at `start`. -/
def HoldsBitmap (start : BitVec 64) (pages i : Nat) : Prop :=
  ∃ b < 4 * (pages / 32 + 1), (start.toNat + b) / 4096 = i

/-- Frame `i` lies in a conventional descriptor of the map. -/
def InConventional (mmap : List EfiMemoryDescriptor) (i : Nat) : Prop :=
  ∃ desc ∈ mmap, desc.Conventional ∧
    frameOf desc.physicalstart ≤ i ∧ i < frameOf desc.physicalstart + desc.numberofpages.toNat

/-- Frames that hold the bitmap are the ones `ppa_init` locks for it. -/
theorem covers_bitmap_iff {start : BitVec 64} {total : BitVec 64} {pages n : Nat}
    (htotal : total.toNat = 4096 * pages) (haligned : start.toNat % 4096 = 0)
    (hwrap : start.toNat + 4096 * n ≤ 2 ^ 64) (hfits : 4 * (pages / 32 + 1) ≤ 4096 * n) (i : Nat) :
    Covers start (bitmapPages (total / 4096 / 32 + 1)).toNat i ↔ HoldsBitmap start pages i := by
  have hsize : (total / 4096 / 32 + 1).toNat = pages / 32 + 1 := by
    rw [bitmap_size_to_nat]
    omega
  have hcount := bitmap_pages_to_nat (total / 4096 / 32 + 1)
  rw [hsize] at hcount
  rw [hcount, covers_iff_of_no_wrap (by omega), HoldsBitmap, frameOf]
  constructor
  · rintro ⟨hlo, hhi⟩
    exact ⟨4096 * (i - start.toNat / 4096), by omega, by omega⟩
  · rintro ⟨b, hb, rfl⟩
    omega

/-- `ppa_init` on a well-formed map overflows nowhere, and leaves exactly the conventional frames
free that are above the first megabyte and hold no part of the bitmap, and counters that count each
frame once. -/
theorem ppa_init_free_set (words : Nat → BitVec 32) (mmap : List EfiMemoryDescriptor)
    (desc : EfiMemoryDescriptor) (hmap : WellFormedMap mmap) (hpages : pageCount mmap < 2 ^ 36)
    (hlargest : FirstLargest mmap desc) (hstart : desc.physicalstart ≠ 0)
    (hfits : 4 * (pageCount mmap / 32 + 1) ≤ 4096 * desc.numberofpages.toNat) :
    let s := ppaInit (ppaBoot words) mmap mmap
    s.overflowed = false ∧
    (∀ i < pageCount mmap, s.bit i = false ↔
      0x100 ≤ i ∧ InConventional mmap i ∧ ¬ HoldsBitmap desc.physicalstart (pageCount mmap) i) ∧
    (0x100 ≤ pageCount mmap →
      (∀ i, HoldsBitmap desc.physicalstart (pageCount mmap) i → i < pageCount mmap) →
      s.memFree.toNat = 4096 * countFalse s.bit (pageCount mmap) ∧
      s.memUsed.toNat + s.memRsvd.toNat + s.memFree.toNat = s.memTotal.toNat) := by
  have hmem : desc ∈ mmap := by
    obtain ⟨before, after, rfl, _⟩ := hlargest
    simp
  have hshort : ∀ d ∈ mmap, d.numberofpages.toNat < 2 ^ 52 :=
    fun d hd => lt_trans (hmap.short d hd) (by decide)
  have hsegment := scan_segment_eq hshort hlargest
  have htotal := scan_total_eq (show pageCount mmap < 2 ^ 52 by omega)
  have hcount : totalPages mmap = pageCount mmap := by
    unfold totalPages
    omega
  have haccepted : Accepted mmap := by
    rw [Accepted, hsegment]
    exact hstart
  have hbitmap := covers_bitmap_iff htotal (hmap.aligned desc hmem) (hmap.no_wrap desc hmem) hfits
  -- no descriptor of a well-formed map wraps, so covering a frame is plain arithmetic
  have hconventional : ∀ i, (∃ d ∈ mmap, d.Conventional ∧
      Covers d.physicalstart d.numberofpages.toNat i) ↔ InConventional mmap i := by
    intro i
    refine exists_congr fun d => and_congr_right fun hd => and_congr_right fun _ => ?_
    exact covers_iff_of_no_wrap (hmap.no_wrap d hd) i
  have hpos : 0 < pageCount mmap := by
    obtain ⟨before, after, rfl, _, hpos, _⟩ := hlargest
    simp only [pageCount, List.map_append, List.map_cons, List.sum_append, List.sum_cons]
    omega
  rw [ppa_init_accepted words mmap haccepted, ← hcount]
  refine ⟨?_, fun i hi => ?_, fun hmin hheld => ?_⟩
  · have hnever : ¬ ∃ d ∈ mmap, d.Conventional ∧ 2 ^ 19 < d.numberofpages.toNat := by
      rintro ⟨d, hd, _, hlong⟩
      exact lt_asymm hlong (hmap.short d hd)
    rw [overflowed_initialized]
    exact Bool.eq_false_iff.mpr (mt (ppa_locked_overflowed words mmap mmap).mp hnever)
  · have hbit := bit_ppa_locked words (by omega) (by omega) hmap.short hi
    rw [hsegment, hbitmap, hconventional] at hbit
    rw [bit_initialized, ← Bool.not_eq_true, hbit, hcount]
    simp only [not_or, not_not, not_lt]
    tauto
  · have htracked : BitmapTracked mmap := by
      intro i hi
      rw [hsegment, hbitmap, ← hcount] at hi
      exact hheld i hi
    have hsum := ppa_locked_sum words mmap hmin (by omega) htracked
    have hfixed := (ppa_locked_fixed words mmap mmap).trans (ppa_cleared_fixed words mmap)
    simp only [fixed, Prod.mk.injEq] at hfixed
    rw [← hfixed.2.2.2.1] at hsum
    generalize ppaLocked words mmap mmap = locked at hsum
    exact ⟨hsum.2, hsum.1⟩

/-- On the 64-page map the 63 conventional frames behind the bitmap are free. -/
theorem ppa_init_free_set_low_map :
    let s := ppaInit (ppaBoot fun _ => 0) (lowMap 64) (lowMap 64)
    s.overflowed = false ∧
    (∀ i < pageCount (lowMap 64), s.bit i = false ↔
      0x100 ≤ i ∧ InConventional (lowMap 64) i ∧ ¬ HoldsBitmap 0x100000 (pageCount (lowMap 64)) i) ∧
    (0x100 ≤ pageCount (lowMap 64) →
      (∀ i, HoldsBitmap 0x100000 (pageCount (lowMap 64)) i → i < pageCount (lowMap 64)) →
      s.memFree.toNat = 4096 * countFalse s.bit (pageCount (lowMap 64)) ∧
      s.memUsed.toNat + s.memRsvd.toNat + s.memFree.toNat = s.memTotal.toNat) :=
  ppa_init_free_set (fun _ => 0) (lowMap 64)
    ⟨EfiMemoryType.EfiConventionalMemory.value, 0x100000, 64⟩
    ⟨by decide, by decide, by decide⟩ (by decide)
    ⟨[⟨EfiMemoryType.EfiReservedMemoryType.value, 0, 0x100⟩], [], rfl, by decide, by decide,
      by decide, by decide⟩ (by decide) (by decide)

end SiStultum
