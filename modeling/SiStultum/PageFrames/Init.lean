import SiStultum.PageFrames.Request

/-!
# Building the bitmap from the firmware's memory map

`ppa_init` walks the memory map twice. The first walk adds up the sizes and picks the
largest conventional segment, which then holds the bitmap; the second releases the
conventional descriptors. Between the walks the bitmap is cleared over the chosen
segment, and nothing checks that the map is not stored there, so the second walk has its
own list, `reread`. The two lists are equal when the bitmap does not touch the map.

`ppaReach` is the state after `ppa_init` and a list of calls.
-/

namespace SiStultum

open PpaState IntLoop

/-- `EFI_MEMORY_TYPE` of `page_frames.c`. -/
inductive EfiMemoryType where
  | EfiReservedMemoryType
  | EfiLoaderCode
  | EfiLoaderData
  | EfiBootServicesCode
  | EfiBootServicesData
  | EfiRuntimeServicesCode
  | EfiRuntimeServicesData
  | EfiConventionalMemory
  | EfiUnusableMemory
  | EfiACPIReclaimMemory
  | EfiACPIMemoryNVS
  | EfiMemoryMappedIO
  | EfiMemoryMappedIOPortSpace
  | EfiPalCode
  | EfiPersistentMemory
  | EfiMaxMemoryType
  deriving DecidableEq, Repr

/-- The number a descriptor stores for a memory type. -/
def EfiMemoryType.value (type : EfiMemoryType) : BitVec 32 :=
  BitVec.ofNat 32 type.ctorIdx

/-- The fields of `EfiMemoryDescriptor` that the allocator reads. -/
structure EfiMemoryDescriptor where
  type : BitVec 32
  physicalstart : BitVec 64
  numberofpages : BitVec 64
  deriving DecidableEq, Repr

/-- `desc->type == EfiConventionalMemory`. -/
def EfiMemoryDescriptor.Conventional (desc : EfiMemoryDescriptor) : Prop :=
  desc.type = EfiMemoryType.EfiConventionalMemory.value

instance (desc : EfiMemoryDescriptor) : Decidable desc.Conventional :=
  inferInstanceAs (Decidable (_ = _))

/-- The variables of the first loop of `ppa_init`. -/
structure MapScan where
  memTotal : BitVec 64
  largestSegment : BitVec 64
  largestSize : BitVec 64
  deriving DecidableEq, Repr

/-- The body of the first loop of `ppa_init`. -/
def MapScan.next (scan : MapScan) (desc : EfiMemoryDescriptor) : MapScan :=
  let crtSize := desc.numberofpages * 4096
  let scan := { scan with memTotal := scan.memTotal + crtSize }
  if desc.Conventional ∧ crtSize > scan.largestSize then
    { scan with largestSegment := desc.physicalstart, largestSize := crtSize }
  else scan

/-- The first loop of `ppa_init`. -/
def scanMap (mmap : List EfiMemoryDescriptor) : MapScan :=
  mmap.foldl MapScan.next ⟨0, 0, 0⟩

/-- `ppa_init_bitmap`. -/
def ppaInitBitmap (s : PpaState) (dataAddr pages : BitVec 64) : PpaState :=
  let size := pages / 32 + 1
  let s := { s with bitmap :=
    { size := size, maxIndex := pages - 1, data := dataAddr, words := s.bitmap.words } }
  forInt size (fun i s => s.setWord (i.signExtend 64).toNat 0) 0 s

/-- The body of the second loop of `ppa_init`. -/
def unreserveDescriptor (s : PpaState) (desc : EfiMemoryDescriptor) : PpaState :=
  if desc.Conventional then s.proceed (ppaUrsvn s desc.physicalstart desc.numberofpages) else s

/-- The number of frames that hold a bitmap of `size` words. -/
def bitmapPages (size : BitVec 64) : BitVec 64 :=
  size / 1024 + (if size % 1024 ≠ 0 then 1 else 0)

/-- `ppa_init`. `mmap` is what its first loop reads of the memory map and `reread` what its second
loop reads. -/
def ppaInit (s : PpaState) (mmap reread : List EfiMemoryDescriptor) : PpaState :=
  if s.initialized then s
  else
    let scan := scanMap mmap
    let s := { s with
      memUsed := 0, memRsvd := 0, memFree := scan.memTotal, memTotal := scan.memTotal }
    if scan.largestSegment = 0 then s
    else
      let totalPages := s.memTotal / 4096
      let s := ppaInitBitmap s scan.largestSegment totalPages
      let s := ppaRsvn s 0 totalPages
      let s := reread.foldl unreserveDescriptor s
      let s := ppaRsvn s 0 0x100
      let s := ppaLckn s s.bitmap.data (bitmapPages s.bitmap.size)
      { s with initialized := true }

/-- The globals before `ppa_init`. `words` is whatever memory will lie behind the bitmap. -/
def ppaBoot (words : Nat → BitVec 32) : PpaState where
  bitmap := ⟨0, 0, 0, words⟩
  memUsed := 0
  memRsvd := 0
  memFree := 0
  memTotal := 0
  initialized := false
  lastHit := 0

/-- The memory map makes `ppa_init` build a bitmap. -/
def Accepted (mmap : List EfiMemoryDescriptor) : Prop :=
  (scanMap mmap).largestSegment ≠ 0

instance (mmap : List EfiMemoryDescriptor) : Decidable (Accepted mmap) :=
  inferInstanceAs (Decidable (_ ≠ _))

/-- `total_pages` of `ppa_init`. -/
def totalPages (mmap : List EfiMemoryDescriptor) : Nat :=
  (scanMap mmap).memTotal.toNat / 4096

/-- A map of 256 reserved pages and `n` conventional pages at 1 MiB. -/
def lowMap (n : BitVec 64) : List EfiMemoryDescriptor :=
  [⟨EfiMemoryType.EfiReservedMemoryType.value, 0, 0x100⟩,
    ⟨EfiMemoryType.EfiConventionalMemory.value, 0x100000, n⟩]

/-- The state after `ppa_init` on a map and the given calls. -/
def ppaReach (words : Nat → BitVec 32) (mmap reread : List EfiMemoryDescriptor)
    (ops : List PpaOp) : PpaState :=
  Runs.run ppaStep (ppaInit (ppaBoot words) mmap reread) ops

/-! ## The states inside `ppa_init` -/

section Stages

variable (words : Nat → BitVec 32) (mmap reread : List EfiMemoryDescriptor)

/-- The state before `ppa_init` sets up the bitmap. -/
def ppaTotalled : PpaState :=
  { ppaBoot words with
    memFree := (scanMap mmap).memTotal, memTotal := (scanMap mmap).memTotal }

/-- The state with a cleared bitmap. -/
def ppaCleared : PpaState :=
  ppaInitBitmap (ppaTotalled words mmap) (scanMap mmap).largestSegment
    ((scanMap mmap).memTotal / 4096)

/-- The state with every frame reserved. -/
def ppaReserved : PpaState :=
  ppaRsvn (ppaCleared words mmap) 0 ((scanMap mmap).memTotal / 4096)

/-- The state with the conventional frames free. -/
def ppaUnreserved : PpaState :=
  reread.foldl unreserveDescriptor (ppaReserved words mmap)

/-- The state with the first 256 frames reserved again. -/
def ppaLowReserved : PpaState :=
  ppaRsvn (ppaUnreserved words mmap reread) 0 0x100

/-- The state with the frames of the bitmap locked. -/
def ppaLocked : PpaState :=
  ppaLckn (ppaLowReserved words mmap reread) (ppaLowReserved words mmap reread).bitmap.data
    (bitmapPages (ppaLowReserved words mmap reread).bitmap.size)

variable {mmap}

/-- `ppa_init` on an accepted map runs through all its stages. -/
theorem ppa_init_accepted (h : Accepted mmap) :
    ppaInit (ppaBoot words) mmap reread =
      { ppaLocked words mmap reread with initialized := true } := by
  have hne : ¬ (scanMap mmap).largestSegment = 0 := h
  simp only [ppaInit, ppaLocked, ppaLowReserved, ppaUnreserved, ppaReserved, ppaCleared,
    ppaTotalled, hne, Bool.false_eq_true, ↓reduceIte, ppaBoot]

end Stages

/-! ## The geometry of the bitmap -/

/-- The words of a bitmap for `total` bytes of memory. -/
theorem bitmap_size_to_nat (total : BitVec 64) :
    (total / 4096 / 32 + 1).toNat = total.toNat / 4096 / 32 + 1 := by
  have hpages : (total / 4096 / 32).toNat = total.toNat / 4096 / 32 := rfl
  have htotal := total.isLt
  rw [BitVec.toNat_add, hpages]
  simp only [BitVec.ofNat_eq_ofNat, BitVec.toNat_ofNat]
  omega

/-- The greatest index of a bitmap for `total` bytes of memory, at least one page. -/
theorem max_index_to_nat {total : BitVec 64} (h : 0 < total.toNat / 4096) :
    (total / 4096 - 1).toNat = total.toNat / 4096 - 1 := by
  have hpages : (total / 4096).toNat = total.toNat / 4096 := rfl
  have htotal := total.isLt
  rw [BitVec.toNat_sub, hpages]
  simp only [BitVec.ofNat_eq_ofNat, BitVec.toNat_ofNat]
  omega

/-- The conventional loop changes none of the fixed fields. -/
theorem unreserve_fixed (reread : List EfiMemoryDescriptor) (s : PpaState) :
    (reread.foldl unreserveDescriptor s).fixed = s.fixed := by
  induction reread generalizing s with
  | nil => rfl
  | cons desc reread ih =>
      rw [List.foldl_cons, ih, unreserveDescriptor]
      split
      · exact release_n_fixed
      · rfl

/-- Clearing the bitmap changes its words only. -/
theorem clear_words_fixed (size : BitVec 64) (s : PpaState) :
    (forInt size (fun i s => s.setWord (i.signExtend 64).toNat 0) 0 s).fixed = s.fixed :=
  for_int_invariant (fun t : PpaState => t.fixed = s.fixed) _ _
    (fun _ _ ht => (set_word_fixed _ _ _).trans ht) 0 rfl

/-- What the first walk over the map fixes. -/
theorem ppa_cleared_fixed (words : Nat → BitVec 32) (mmap : List EfiMemoryDescriptor) :
    (ppaCleared words mmap).fixed =
      ((scanMap mmap).memTotal / 4096 / 32 + 1, (scanMap mmap).memTotal / 4096 - 1,
        (scanMap mmap).largestSegment, (scanMap mmap).memTotal, false) :=
  clear_words_fixed _ _

/-- Reserving all frames keeps it. -/
theorem ppa_reserved_fixed (words : Nat → BitVec 32) (mmap : List EfiMemoryDescriptor) :
    (ppaReserved words mmap).fixed = (ppaCleared words mmap).fixed :=
  acquire_loop_fixed _

/-- The second walk keeps it. -/
theorem ppa_unreserved_fixed (words : Nat → BitVec 32) (mmap reread : List EfiMemoryDescriptor) :
    (ppaUnreserved words mmap reread).fixed = (ppaCleared words mmap).fixed :=
  (unreserve_fixed reread _).trans (ppa_reserved_fixed words mmap)

/-- Reserving the first megabyte keeps it. -/
theorem ppa_low_reserved_fixed (words : Nat → BitVec 32)
    (mmap reread : List EfiMemoryDescriptor) :
    (ppaLowReserved words mmap reread).fixed = (ppaCleared words mmap).fixed :=
  (acquire_loop_fixed _).trans (ppa_unreserved_fixed words mmap reread)

/-- Locking the bitmap keeps it. -/
theorem ppa_locked_fixed (words : Nat → BitVec 32) (mmap reread : List EfiMemoryDescriptor) :
    (ppaLocked words mmap reread).fixed = (ppaCleared words mmap).fixed :=
  (acquire_loop_fixed _).trans (ppa_low_reserved_fixed words mmap reread)

/-- No call changes the fixed fields. -/
theorem ppa_step_fixed (s : PpaState) (op : PpaOp) : (ppaStep s op).fixed = s.fixed := by
  cases op with
  | lck addr => exact acquire_fixed
  | lckn addr n => exact acquire_loop_fixed _
  | ulck addr => exact release_fixed
  | ulckn addr n => exact release_n_fixed
  | rsv addr => exact acquire_fixed
  | rsvn addr n => exact acquire_loop_fixed _
  | ursv addr => exact release_fixed
  | ursvn addr n => exact release_n_fixed
  | request => exact ppa_request_fixed

/-- A call keeps the bitmap within its size. -/
theorem sized_ppa_step {s : PpaState} (hsized : s.Sized) (op : PpaOp) : (ppaStep s op).Sized := by
  unfold Sized at hsized ⊢
  rwa [size_of_fixed (ppa_step_fixed s op)]

/-- No run changes the fixed fields. -/
theorem ppa_run_fixed (s : PpaState) (ops : List PpaOp) :
    (Runs.run ppaStep s ops).fixed = s.fixed :=
  Runs.run_invariant (fun t : PpaState => t.fixed = s.fixed)
    (fun t op ht => (ppa_step_fixed t op).trans ht) rfl ops

/-! ## Overflow -/

/-- A ranged release of more than `2 ^ 19` pages. -/
def PpaOp.Overflows : PpaOp → Prop
  | .ulckn _ n | .ursvn _ n => 2 ^ 19 < n.toNat
  | _ => False

/-- A request overflows nowhere. -/
theorem ppa_request_overflowed (s : PpaState) : (ppaRequest s).2.overflowed = s.overflowed := by
  unfold ppaRequest
  split
  · exact acquire_overflowed
  · rfl

/-- A call that overflows is a ranged release of too many pages. -/
theorem ppa_step_overflowed (s : PpaState) (op : PpaOp) :
    (ppaStep s op).overflowed = true ↔ s.overflowed = true ∨ op.Overflows := by
  have hkept : ∀ {t : PpaState}, t.overflowed = s.overflowed →
      (t.overflowed = true ↔ s.overflowed = true ∨ False) := by
    intro t ht
    rw [ht, or_false]
  cases op with
  | lck addr | rsv addr => exact hkept acquire_overflowed
  | lckn addr n | rsvn addr n => exact hkept (acquire_loop_overflowed _)
  | ulck addr | ursv addr => exact hkept release_overflowed
  | ulckn addr n | ursvn addr n => exact overflowed_release_n n
  | request => exact hkept (ppa_request_overflowed s)

/-- A run overflows in one of its ranged releases. -/
theorem ppa_run_overflowed (s : PpaState) (ops : List PpaOp) :
    (Runs.run ppaStep s ops).overflowed = true ↔
      s.overflowed = true ∨ ∃ op ∈ ops, op.Overflows := by
  induction ops generalizing s with
  | nil => simp
  | cons op ops ih =>
      rw [Runs.run_cons, ih, ppa_step_overflowed, or_assoc, List.exists_mem_cons_iff]

/-- The second walk of `ppa_init` overflows at a conventional descriptor of more than `2 ^ 19`
pages. -/
theorem unreserve_overflowed (reread : List EfiMemoryDescriptor) (s : PpaState) :
    (reread.foldl unreserveDescriptor s).overflowed = true ↔ s.overflowed = true ∨
      ∃ desc ∈ reread, desc.Conventional ∧ 2 ^ 19 < desc.numberofpages.toNat := by
  induction reread generalizing s with
  | nil => simp
  | cons desc reread ih =>
      have hfirst : (unreserveDescriptor s desc).overflowed = true ↔
          s.overflowed = true ∨ desc.Conventional ∧ 2 ^ 19 < desc.numberofpages.toNat := by
        unfold unreserveDescriptor
        split
        · next hconventional =>
          rw [ppaUrsvn, overflowed_release_n]
          simp only [hconventional, true_and]
        · next hother => simp only [hother, false_and, or_false]
      rw [List.foldl_cons, ih, hfirst, or_assoc, List.exists_mem_cons_iff]

/-- The loop that clears the bitmap overflows nowhere. -/
theorem clear_words_overflowed (size : BitVec 64) (s : PpaState) :
    (forInt size (fun i s => s.setWord (i.signExtend 64).toNat 0) 0 s).overflowed =
      s.overflowed := by
  refine for_int_invariant (fun t : PpaState => t.overflowed = s.overflowed) _ _ ?_ 0 rfl
  exact fun _ _ ht => ht

/-- `ppa_init` overflows in its second walk or not at all. -/
theorem ppa_locked_overflowed (words : Nat → BitVec 32) (mmap reread : List EfiMemoryDescriptor) :
    (ppaLocked words mmap reread).overflowed = true ↔
      ∃ desc ∈ reread, desc.Conventional ∧ 2 ^ 19 < desc.numberofpages.toNat := by
  have hreserved : (ppaReserved words mmap).overflowed = false :=
    (acquire_loop_overflowed _).trans (clear_words_overflowed _ _)
  have hlocked : (ppaLocked words mmap reread).overflowed =
      (ppaUnreserved words mmap reread).overflowed :=
    (acquire_loop_overflowed _).trans (acquire_loop_overflowed _)
  rw [hlocked, ppaUnreserved, unreserve_overflowed, hreserved]
  simp only [Bool.false_eq_true, false_or]

/-- The flag of `ppa_init` says nothing about an overflow. -/
theorem overflowed_initialized (s : PpaState) :
    PpaState.overflowed { s with initialized := true } = s.overflowed := rfl

/-- `ppa_init` and a list of calls overflow exactly when a conventional descriptor of the second
walk, on a map that is accepted, or a ranged release has more than `2 ^ 19` pages. -/
theorem ppa_reach_overflowed_iff (words : Nat → BitVec 32)
    (mmap reread : List EfiMemoryDescriptor) (ops : List PpaOp) :
    (ppaReach words mmap reread ops).overflowed = true ↔
      (Accepted mmap ∧ ∃ desc ∈ reread, desc.Conventional ∧ 2 ^ 19 < desc.numberofpages.toNat) ∨
        ∃ op ∈ ops, op.Overflows := by
  rw [ppaReach, ppa_run_overflowed]
  refine or_congr_left ?_
  by_cases haccepted : Accepted mmap
  · rw [ppa_init_accepted words reread haccepted, overflowed_initialized, ppa_locked_overflowed]
    simp only [haccepted, true_and]
  · have hzero : (scanMap mmap).largestSegment = 0 := not_not.mp haccepted
    simp [ppaInit, ppaBoot, hzero, haccepted]

/-- The frames of a bitmap of `size` words. -/
theorem bitmap_pages_to_nat (size : BitVec 64) :
    (bitmapPages size).toNat = (size.toNat + 1023) / 1024 := by
  have hdiv : (size / 1024).toNat = size.toNat / 1024 := rfl
  have hmod : (size % 1024).toNat = size.toNat % 1024 := rfl
  have hsize := size.isLt
  unfold bitmapPages
  split
  · next hne =>
      have hpos : (size % 1024).toNat ≠ 0 := fun h => hne (BitVec.eq_of_toNat_eq h)
      rw [BitVec.toNat_add, hdiv]
      simp only [BitVec.ofNat_eq_ofNat, BitVec.toNat_ofNat]
      omega
  · next heq =>
      have hzero : (size % 1024).toNat = 0 := by
        rw [not_not] at heq
        rw [heq]
        rfl
      rw [BitVec.toNat_add, hdiv]
      simp only [BitVec.ofNat_eq_ofNat, BitVec.toNat_ofNat]
      omega

/-! ## The cleared bitmap -/

/-- The loop of `ppa_init_bitmap` clears the words of a bitmap of at most `2 ^ 31` words. -/
theorem clear_words_zero {size : BitVec 64} (hsize : size.toNat ≤ 2 ^ 31) (s : PpaState) {j : Nat}
    (hj : j < size.toNat) :
    (forInt size (fun i s => s.setWord (i.signExtend 64).toNat 0) 0 s).bitmap.words j = 0 := by
  have hloop : ∀ m ≤ size.toNat,
      ((List.range m).foldl (fun s i =>
        s.setWord ((BitVec.ofNat 32 i).signExtend 64).toNat 0) s).bitmap.words j =
        if j < m then 0 else s.bitmap.words j := by
    intro m hm
    induction m with
    | zero => rfl
    | succ m ih =>
        have hindex := sign_extend_of_nat (show m < 2 ^ 31 by omega)
        rw [List.range_succ, List.foldl_append, List.foldl_cons, List.foldl_nil, hindex]
        rw [set_word_words, ih (by omega)]
        by_cases hjm : j = m
        · simp [hjm]
        · have hiff : j < m + 1 ↔ j < m := by omega
          simp [hjm, hiff]
  rw [for_int_eq_foldl hsize, hloop size.toNat le_rfl, if_pos hj]

/-- Every bit of the cleared bitmap is clear. -/
theorem bit_ppa_cleared (words : Nat → BitVec 32) {mmap : List EfiMemoryDescriptor}
    (hpages : totalPages mmap < 2 ^ 36) {i : Nat} (hi : i / 32 ≤ totalPages mmap / 32) :
    (ppaCleared words mmap).bit i = false := by
  have hsize := bitmap_size_to_nat (scanMap mmap).memTotal
  unfold totalPages at hpages hi
  have hlong : ((scanMap mmap).memTotal / 4096 / 32 + 1).toNat ≤ 2 ^ 31 := by
    rw [hsize]
    omega
  have hzero := clear_words_zero hlong
    { ppaTotalled words mmap with bitmap :=
      { size := (scanMap mmap).memTotal / 4096 / 32 + 1,
        maxIndex := (scanMap mmap).memTotal / 4096 - 1,
        data := (scanMap mmap).largestSegment, words := words } }
    (j := i / 32) (by rw [hsize]; omega)
  have hword : (ppaCleared words mmap).bitmap.words (i / 32) = 0 := hzero
  rw [bit, hword]
  simp

/-- The counters of the cleared bitmap. -/
theorem ppa_cleared_counters (words : Nat → BitVec 32) (mmap : List EfiMemoryDescriptor) :
    (ppaCleared words mmap).counters = (0, 0, (scanMap mmap).memTotal) :=
  for_int_invariant (fun t : PpaState => t.counters = (0, 0, (scanMap mmap).memTotal)) _ _
    (fun _ _ ht => (set_word_counters _ _ _).trans ht) 0 rfl

/-- A descriptor adds its size to the total. -/
theorem scan_next_mem_total (scan : MapScan) (desc : EfiMemoryDescriptor) :
    (scan.next desc).memTotal = scan.memTotal + desc.numberofpages * 4096 := by
  simp only [MapScan.next]
  split <;> rfl

/-- The total is a number of whole pages. -/
theorem scan_total_aligned (mmap : List EfiMemoryDescriptor) :
    (scanMap mmap).memTotal.toNat % 4096 = 0 := by
  have hloop : ∀ (scan : MapScan), scan.memTotal.toNat % 4096 = 0 →
      (mmap.foldl MapScan.next scan).memTotal.toNat % 4096 = 0 := by
    induction mmap with
    | nil => exact fun _ h => h
    | cons desc mmap ih =>
        intro scan h
        apply ih
        rw [scan_next_mem_total]
        bv_omega
  exact hloop ⟨0, 0, 0⟩ rfl

section Reach

variable (words : Nat → BitVec 32) {mmap : List EfiMemoryDescriptor}
  (reread : List EfiMemoryDescriptor) (ops : List PpaOp)

/-- The geometry of the bitmap in every state reached from an accepted map. -/
theorem ppa_reach_fixed (h : Accepted mmap) :
    (ppaReach words mmap reread ops).fixed =
      ((scanMap mmap).memTotal / 4096 / 32 + 1, (scanMap mmap).memTotal / 4096 - 1,
        (scanMap mmap).largestSegment, (scanMap mmap).memTotal, true) := by
  have hlocked := (ppa_locked_fixed words mmap reread).trans (ppa_cleared_fixed words mmap)
  rw [ppaReach, ppa_run_fixed, ppa_init_accepted words reread h]
  simp only [fixed, Prod.mk.injEq] at hlocked ⊢
  simp [hlocked]

/-- The size of the bitmap in every state that is reached. -/
theorem ppa_reach_size (h : Accepted mmap) :
    (ppaReach words mmap reread ops).bitmap.size = (scanMap mmap).memTotal / 4096 / 32 + 1 :=
  congrArg (fun f => f.1) (ppa_reach_fixed words reread ops h)

/-- A map that is not accepted leaves the bitmap empty. -/
theorem ppa_reach_rejected (h : ¬ Accepted mmap) :
    (ppaReach words mmap reread ops).fixed = (0, 0, 0, (scanMap mmap).memTotal, false) := by
  have hzero : (scanMap mmap).largestSegment = 0 := by
    simpa [Accepted] using h
  rw [ppaReach, ppa_run_fixed]
  simp [ppaInit, ppaBoot, hzero, fixed]

variable (mmap) in
/-- Every index below the end of the bitmap is the number of a frame, in every state reached. -/
theorem ppa_reach_sized : (ppaReach words mmap reread ops).Sized := by
  by_cases h : Accepted mmap
  · have htotal := (scanMap mmap).memTotal.isLt
    unfold Sized
    rw [ppa_reach_size words reread ops h, bitmap_size_to_nat]
    omega
  · have hsize := congrArg (fun f => f.1) (ppa_reach_rejected words reread ops h)
    simp only [fixed] at hsize
    simp [Sized, hsize]

end Reach

end SiStultum
