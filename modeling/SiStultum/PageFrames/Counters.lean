import SiStultum.Library.Counting
import SiStultum.PageFrames.Init

/-!
# The memory counters and the bitmap

`Counted s` says the counters agree with the number of tracked frames whose bit is clear
and set. A call preserves it when the frames it locks or reserves are tracked and the
index it requests is not past the last tracked frame (`InRange`). A call outside that
range charges for a frame without setting a bit, and from then on the counters and the
bitmap disagree.
-/

namespace SiStultum

open PpaState Counting IntLoop

namespace PpaState

/-- The number of tracked frames. -/
def frames (s : PpaState) : Nat :=
  s.bitmap.maxIndex.toNat + 1

/-- The number of tracked frames whose bit is clear. -/
def freeFrames (s : PpaState) : Nat :=
  countFalse s.bit s.frames

/-- The number of tracked frames whose bit is set. -/
def takenFrames (s : PpaState) : Nat :=
  countTrue s.bit s.frames

end PpaState

/-- The counters agree with the bitmap, in 64-bit arithmetic. -/
structure Counted (s : PpaState) : Prop where
  free : s.memFree = BitVec.ofNat 64 (4096 * s.freeFrames)
  taken : s.memUsed + s.memRsvd = BitVec.ofNat 64 (4096 * s.takenFrames)

variable {s : PpaState} {account : Account} {addr : BitVec 64}

/-- The number of frames is fixed. -/
theorem frames_of_fixed {t : PpaState} (h : t.fixed = s.fixed) : t.frames = s.frames := by
  rw [frames, frames, max_index_of_fixed h]

/-- The counters and the bitmap are all that matters. -/
theorem Counted.congr {t : PpaState} (h : Counted s) (hbitmap : t.bitmap = s.bitmap)
    (hcounters : t.counters = s.counters) : Counted t := by
  have hbit : t.bit = s.bit := by
    funext i
    rw [bit, bit, hbitmap]
  simp only [counters, Prod.mk.injEq] at hcounters
  constructor
  · rw [hcounters.2.2, h.free, freeFrames, freeFrames, frames, frames, hbit, hbitmap]
  · rw [hcounters.1, hcounters.2.1, h.taken, takenFrames, takenFrames, frames, frames, hbit,
      hbitmap]

/-- The flag of `ppa_init` does not touch the counters. -/
theorem Counted.initialized (h : Counted s) : Counted { s with initialized := true } :=
  h.congr rfl rfl

/-- Taking a free tracked frame and charging for it keeps the counters. -/
theorem Counted.charge_set (h : Counted s) {index : BitVec 64} (htracked : s.Tracked index.toNat)
    (hclear : s.bit index.toNat = false) :
    Counted ((ppaBitmapSet s index true).2.charge account) := by
  have hframes : ((ppaBitmapSet s index true).2.charge account).frames = s.frames :=
    frames_of_fixed ((charge_fixed _ _).trans (ppa_bitmap_set_fixed _ _))
  have hbit : ∀ j, ((ppaBitmapSet s index true).2.charge account).bit j =
      if s.Tracked index.toNat ∧ j = index.toNat then true else s.bit j := by
    intro j
    rw [charge_bit, bit_ppa_bitmap_set]
  have hindex : index.toNat < s.frames := Nat.lt_succ_of_le htracked
  have hother : ∀ j, j ≠ index.toNat →
      ((ppaBitmapSet s index true).2.charge account).bit j = s.bit j := by
    intro j hj
    simp [hbit, hj]
  have htrue := count_true_set hindex hclear (by simp [hbit, htracked]) hother
  have hfalse := count_false_set hindex hclear (by simp [hbit, htracked]) hother
  have hcounters := ppa_bitmap_set_counters (s := s) index true
  simp only [counters, Prod.mk.injEq] at hcounters
  constructor
  · rw [charge_mem_free, hcounters.2.2, h.free, freeFrames, freeFrames, hframes, ← hfalse]
    bv_omega
  · rw [charge_taken, hcounters.1, hcounters.2.1, h.taken, takenFrames, takenFrames, hframes,
      htrue]
    bv_omega

/-- Freeing a taken tracked frame and refunding it keeps the counters. -/
theorem Counted.refund_clear (h : Counted s) {index : BitVec 64} (htracked : s.Tracked index.toNat)
    (hset : s.bit index.toNat = true) (hit : BitVec 64) :
    Counted { (ppaBitmapSet s index false).2.refund account with lastHit := hit } := by
  set t : PpaState := { (ppaBitmapSet s index false).2.refund account with lastHit := hit } with ht
  have hframes : t.frames = s.frames :=
    frames_of_fixed ((refund_fixed account _).trans (ppa_bitmap_set_fixed _ _))
  have hbit : ∀ j, t.bit j =
      if s.Tracked index.toNat ∧ j = index.toNat then false else s.bit j := by
    intro j
    have hrefund := congrFun (refund_bit account (ppaBitmapSet s index false).2) j
    rw [← bit_ppa_bitmap_set, ← hrefund]
    rfl
  have hindex : index.toNat < s.frames := Nat.lt_succ_of_le htracked
  have hother : ∀ j, j ≠ index.toNat → s.bit j = t.bit j := by
    intro j hj
    simp [hbit, hj]
  -- one bit differs, so both counts move by one
  have htrue := count_true_set hindex (by simp [hbit, htracked]) hset hother
  have hfalse := count_false_set hindex (by simp [hbit, htracked]) hset hother
  have hcounters := ppa_bitmap_set_counters (s := s) index false
  simp only [counters, Prod.mk.injEq] at hcounters
  have hfree : t.memFree = s.memFree + 4096 := by
    rw [← hcounters.2.2]
    exact refund_mem_free account _
  have htaken : t.memUsed + t.memRsvd = s.memUsed + s.memRsvd - 4096 := by
    rw [← hcounters.1, ← hcounters.2.1]
    exact refund_taken account _
  constructor
  · rw [hfree, h.free, freeFrames, freeFrames, hframes, ← hfalse]
    bv_omega
  · rw [htaken, h.taken, takenFrames, takenFrames, hframes, htrue]
    bv_omega

/-- Locking or reserving a tracked frame keeps the counters. -/
theorem Counted.acquire (h : Counted s) (htracked : s.Tracked (frameOf addr)) :
    Counted (acquire account s addr) := by
  obtain ⟨_, _, hsame⟩ | ⟨_, hclear, hstate⟩ | ⟨huntracked, _⟩ := acquire_cases account s addr
  · rwa [hsame]
  · rw [hstate]
    exact h.charge_set htracked hclear
  · exact absurd htracked huntracked

/-- Unlocking or unreserving keeps the counters, for any address. -/
theorem Counted.release (h : Counted s) : Counted (release account s addr) := by
  obtain ⟨htracked, hset, hstate⟩ | ⟨_, hsame⟩ := release_cases account s addr
  · rw [hstate]
    have hindex : s.Tracked (addr / 4096).toNat := htracked
    exact h.refund_clear hindex hset _
  · rwa [hsame]

/-- Locking or reserving a range of tracked frames keeps the counters. -/
theorem Counted.acquire_loop (h : Counted s) {n : Nat}
    (htracked : ∀ i, Covers addr n i → s.Tracked i) : Counted (acquireLoop account s addr n) := by
  induction n generalizing s addr with
  | zero => exact h
  | succ n ih =>
      refine ih (h.acquire (htracked _ ((covers_succ addr n _).mpr (.inl rfl)))) (fun i hi => ?_)
      rw [tracked_of_fixed acquire_fixed]
      exact htracked i ((covers_succ addr n i).mpr (.inr hi))

/-- Unlocking or unreserving a range keeps the counters, for any range. -/
theorem Counted.release_n (h : Counted s) {n : BitVec 64} :
    Counted (s.proceed (releaseN account s addr n)) :=
  proceed_release_n Counted (fun _ _ ht => ht.release) (fun _ _ ht => ht.congr rfl rfl)
    (fun hs => hs.congr rfl rfl) h

/-- A request that does not go past the last tracked frame keeps the counters. -/
theorem Counted.request (h : Counted s) (hsized : s.Sized) (hin : s.FreeAtHint ∨ s.FullAtHint) :
    Counted (ppaRequest s).2 := by
  obtain ⟨_, hsame⟩ | ⟨_, index, htracked, hclear, _, _, _, hstate⟩ | ⟨hnotfull, hnotfree, _⟩ :=
    ppa_request_cases hsized
  · rwa [hsame]
  · rw [hstate]
    have hmoved : Counted { s with lastHit := index } := h.congr rfl rfl
    exact hmoved.charge_set htracked hclear
  · exact absurd hin (by simp [hnotfull, hnotfree])

/-- The call charges for tracked frames only. -/
def InRange (s : PpaState) : PpaOp → Prop
  | .lck addr | .rsv addr => s.Tracked (frameOf addr)
  | .lckn addr n | .rsvn addr n => ∀ i, Covers addr n.toNat i → s.Tracked i
  | .request => s.FreeAtHint ∨ s.FullAtHint
  | _ => True

/-- A call in range keeps the counters. -/
theorem Counted.ppa_step (h : Counted s) (hsized : s.Sized) {op : PpaOp} (hin : InRange s op) :
    Counted (ppaStep s op) := by
  cases op with
  | lck addr | rsv addr => exact h.acquire hin
  | lckn addr n | rsvn addr n => exact h.acquire_loop hin
  | ulck addr | ursv addr => exact h.release
  | ulckn addr n | ursvn addr n => exact h.release_n
  | request => exact h.request hsized hin

/-- A locked or reserved frame out of range leaves the counters wrong. -/
theorem Counted.not_of_untracked (h : Counted s) (huntracked : ¬ s.Tracked (frameOf addr)) :
    ¬ Counted (SiStultum.acquire account s addr) := by
  intro hafter
  obtain ⟨htracked, _⟩ | ⟨htracked, _⟩ | ⟨_, hstate⟩ := acquire_cases account s addr
  · exact huntracked htracked
  · exact huntracked htracked
  · have hframes : (s.charge account).frames = s.frames := frames_of_fixed (charge_fixed _ _)
    have hfree := hafter.free
    rw [hstate, charge_mem_free, h.free, freeFrames, freeFrames, hframes, charge_bit] at hfree
    bv_omega

/-! ## From the memory map on -/

section Init

variable (words : Nat → BitVec 32) {mmap : List EfiMemoryDescriptor}
  (reread : List EfiMemoryDescriptor)

/-- The number of frames is that of the map. -/
theorem frames_of_total {t : PpaState} (hmin : 0 < totalPages mmap)
    (h : t.fixed = (ppaCleared words mmap).fixed) : t.frames = totalPages mmap := by
  have hmax := congrArg (fun f => f.2.1) (h.trans (ppa_cleared_fixed words mmap))
  simp only [fixed] at hmax
  rw [frames, hmax, max_index_to_nat hmin]
  unfold totalPages at hmin ⊢
  omega

/-- The frames that are tracked are those of the map. -/
theorem tracked_of_total {t : PpaState} (hmin : 0 < totalPages mmap)
    (h : t.fixed = (ppaCleared words mmap).fixed) (i : Nat) :
    t.Tracked i ↔ i < totalPages mmap := by
  rw [← frames_of_total words hmin h, frames, Tracked]
  omega

/-- The cleared bitmap has every frame free and counts all memory as free. -/
theorem counted_ppa_cleared (hmin : 0 < totalPages mmap) (hmax : totalPages mmap < 2 ^ 36) :
    Counted (ppaCleared words mmap) := by
  have hframes := frames_of_total words hmin rfl
  have hcounters := ppa_cleared_counters words mmap
  simp only [counters, Prod.mk.injEq] at hcounters
  have htaken : (ppaCleared words mmap).takenFrames = 0 := by
    rw [takenFrames, hframes]
    exact count_true_eq_zero (fun i hi => bit_ppa_cleared words hmax (by omega))
  have hfree : (ppaCleared words mmap).freeFrames = totalPages mmap := by
    have hall := count_true_add_false (ppaCleared words mmap).bit (ppaCleared words mmap).frames
    rw [← takenFrames, ← freeFrames, htaken, hframes] at hall
    omega
  have haligned := scan_total_aligned mmap
  constructor
  · rw [hcounters.2.2, hfree]
    unfold totalPages
    bv_omega
  · rw [hcounters.1, hcounters.2.1, htaken]
    rfl

/-- The conventional loop keeps the counters. -/
theorem Counted.unreserve (h : Counted s) : Counted (reread.foldl unreserveDescriptor s) := by
  induction reread generalizing s with
  | nil => exact h
  | cons desc reread ih =>
      apply ih
      unfold unreserveDescriptor
      split
      · exact h.release_n
      · exact h

/-- The frames that hold the bitmap are tracked. -/
def BitmapTracked (mmap : List EfiMemoryDescriptor) : Prop :=
  ∀ i, Covers (scanMap mmap).largestSegment
    (bitmapPages ((scanMap mmap).memTotal / 4096 / 32 + 1)).toNat i → i < totalPages mmap

/-- The counters agree with the bitmap before its frames are locked, on a map of at least 256
frames. -/
theorem counted_ppa_low_reserved (hmin : 256 ≤ totalPages mmap) (hmax : totalPages mmap < 2 ^ 36) :
    Counted (ppaLowReserved words mmap reread) := by
  have hpos : 0 < totalPages mmap := by omega
  have hcleared := counted_ppa_cleared words hpos hmax
  have hreserved : Counted (ppaReserved words mmap) := by
    refine hcleared.acquire_loop (fun i hi => ?_)
    have hcount : ((scanMap mmap).memTotal / 4096).toNat = totalPages mmap := rfl
    rw [hcount, covers_iff_of_no_wrap (by simp; omega)] at hi
    rw [tracked_of_total words hpos rfl]
    simpa [frameOf] using hi
  have hunreserved : Counted (ppaUnreserved words mmap reread) := hreserved.unreserve reread
  refine hunreserved.acquire_loop (fun i hi => ?_)
  rw [covers_iff_of_no_wrap (by simp)] at hi
  rw [tracked_of_total words hpos (ppa_unreserved_fixed words mmap reread)]
  have hlt := hi.2
  simp [frameOf] at hlt
  omega

/-- `ppa_init` leaves counters that agree with the bitmap, on a map of at least 256 frames whose
bitmap lies in tracked frames. -/
theorem counted_ppa_locked (hmin : 256 ≤ totalPages mmap) (hmax : totalPages mmap < 2 ^ 36)
    (hbitmap : BitmapTracked mmap) : Counted (ppaLocked words mmap reread) := by
  have hlow := counted_ppa_low_reserved words reread hmin hmax
  refine hlow.acquire_loop (fun i hi => ?_)
  have hfixed := ppa_low_reserved_fixed words mmap reread
  rw [tracked_of_total words (by omega) hfixed]
  rw [data_of_fixed hfixed, size_of_fixed hfixed] at hi
  have hgeometry := ppa_cleared_fixed words mmap
  simp only [fixed, Prod.mk.injEq] at hgeometry
  rw [hgeometry.1, hgeometry.2.2.1] at hi
  exact hbitmap i hi

end Init

/-- The counters describe the bitmap. -/
structure CountersDescribe (s : PpaState) : Prop where
  free : s.memFree.toNat = 4096 * s.freeFrames
  taken : (s.memUsed + s.memRsvd).toNat = 4096 * s.takenFrames
  total : s.memUsed + s.memRsvd + s.memFree = s.memTotal

section Reach

variable (words : Nat → BitVec 32) {mmap : List EfiMemoryDescriptor}
  (reread : List EfiMemoryDescriptor)

/-- A state reached from an accepted map has the geometry of the cleared bitmap. -/
theorem reach_geometry (haccepted : Accepted mmap) (ops : List PpaOp) :
    (ppaReach words mmap reread ops).bitmap.maxIndex = (scanMap mmap).memTotal / 4096 - 1 ∧
      (ppaReach words mmap reread ops).memTotal = (scanMap mmap).memTotal := by
  have hfixed := ppa_reach_fixed words reread ops haccepted
  simp only [fixed, Prod.mk.injEq] at hfixed
  exact ⟨hfixed.2.1, hfixed.2.2.2.1⟩

/-- The frames of a reached state are the pages of its map. -/
theorem reach_frames (haccepted : Accepted mmap) (hmin : 0 < totalPages mmap) (ops : List PpaOp) :
    (ppaReach words mmap reread ops).frames = totalPages mmap := by
  rw [frames, (reach_geometry words reread haccepted ops).1, max_index_to_nat hmin]
  unfold totalPages at hmin ⊢
  omega

/-- Counters that agree with the bitmap of a reached state describe it. -/
theorem Counted.describe (haccepted : Accepted mmap) (hmin : 0 < totalPages mmap)
    {ops : List PpaOp} (h : Counted (ppaReach words mmap reread ops)) :
    CountersDescribe (ppaReach words mmap reread ops) := by
  have hframes := reach_frames words reread haccepted hmin ops
  have htotal := (reach_geometry words reread haccepted ops).2
  have haligned := scan_total_aligned mmap
  have hall := count_true_add_false (ppaReach words mmap reread ops).bit
    (ppaReach words mmap reread ops).frames
  rw [← takenFrames, ← freeFrames, hframes] at hall
  have hfree := h.free
  have htaken := h.taken
  unfold totalPages at hall
  constructor
  · rw [hfree, BitVec.toNat_ofNat]
    omega
  · rw [htaken, BitVec.toNat_ofNat]
    omega
  · rw [htaken, hfree, htotal]
    bv_omega

/-- Counters that describe the bitmap agree with it. -/
theorem CountersDescribe.counted (h : CountersDescribe s) : Counted s := by
  have hfree := h.free
  have htaken := h.taken
  constructor
  · rw [← hfree, BitVec.ofNat_toNat, BitVec.setWidth_eq]
  · rw [← htaken, BitVec.ofNat_toNat, BitVec.setWidth_eq]

/-- `ppa_init` leaves an agreeing state. -/
theorem counted_ppa_init (haccepted : Accepted mmap) (hmin : 256 ≤ totalPages mmap)
    (hmax : totalPages mmap < 2 ^ 36) (hbitmap : BitmapTracked mmap) :
    Counted (ppaInit (ppaBoot words) mmap reread) := by
  have hlocked := counted_ppa_locked words reread hmin hmax hbitmap
  rw [ppa_init_accepted words reread haccepted]
  exact hlocked.initialized

end Reach

/-- One page is locked after `ppa_init`. -/
theorem ppa_reach_lck (words : Nat → BitVec 32) (mmap reread : List EfiMemoryDescriptor)
    (addr : BitVec 64) : ppaReach words mmap reread [.lck addr] =
      acquire .used (ppaInit (ppaBoot words) mmap reread) addr := rfl

/-- The bitmap of the 64-page map lies in frame 256. -/
theorem accepted_low_map : Accepted (lowMap 64) := by
  decide

/-- The bitmap of the small map lies among its frames. -/
theorem bitmap_tracked_low_map : BitmapTracked (lowMap 64) := by
  have hpages : (bitmapPages ((scanMap (lowMap 64)).memTotal / 4096 / 32 + 1)).toNat = 1 := by
    decide
  have hsegment : (scanMap (lowMap 64)).largestSegment = 0x100000 := by decide
  have htotal : totalPages (lowMap 64) = 320 := by decide
  intro i hi
  rw [hpages, hsegment, covers_iff_of_no_wrap (by decide)] at hi
  have hframe : frameOf 0x100000 = 256 := by decide
  omega

/-- Frame 319 is the last tracked frame of the 64-page map. -/
theorem tracked_low_map (words : Nat → BitVec 32) (i : Nat) :
    (ppaInit (ppaBoot words) (lowMap 64) (lowMap 64)).Tracked i ↔ i < 320 := by
  have htotal : totalPages (lowMap 64) = 320 := by decide
  have hframes := reach_frames words (lowMap 64) accepted_low_map (by decide) []
  have hlast : (ppaInit (ppaBoot words) (lowMap 64) (lowMap 64)).frames = 320 :=
    hframes.trans htotal
  rw [frames] at hlast
  rw [Tracked]
  omega

end SiStultum
