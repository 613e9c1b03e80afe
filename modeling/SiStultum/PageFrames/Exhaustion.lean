import SiStultum.PageFrames.FreeSet
import SiStultum.PageFrames.Ownership

/-!
# When a request succeeds and when it fails

A request scans from the word of `last_hit` to the end of the bitmap. The last word has
bits past `_max_index`, which read as free, and the scan never looks below its first
word. `exhaustion_reported_iff` gives the states in which an exhausted allocator says
so, and `free_frame_reachable_iff` the states in which a free frame can be had.
-/

namespace SiStultum

open PpaState

/-- What a request should do: return tracked frames only, and when every tracked frame is taken
return 0 and leave the bitmap and the counters alone. -/
structure ExhaustionReported (s : PpaState) : Prop where
  tracked : (ppaRequest s).1 ≠ 0 → ∃ i, s.Tracked i ∧ (ppaRequest s).1.toNat = 4096 * i
  exhausted : (∀ i, s.Tracked i → s.bit i = true) →
    (ppaRequest s).1 = 0 ∧ (ppaRequest s).2.bitmap = s.bitmap ∧
      (ppaRequest s).2.counters = s.counters

/-- A free tracked frame other than frame 0 can be had by the next request. -/
def FreeFrameReachable (s : PpaState) : Prop :=
  (∃ i, 1 ≤ i ∧ s.Tracked i ∧ s.bit i = false) →
    ∃ i, Returns s i ∧ s.Tracked i ∧ s.bit i = false

variable {s : PpaState}

/-- A request does what it should exactly when the words it visits hold a free tracked frame or no
clear bit at all. -/
theorem PpaState.Sized.exhaustion_reported (hsized : s.Sized) :
    ExhaustionReported s ↔ s.FreeAtHint ∨ s.FullAtHint := by
  obtain ⟨hfull, h⟩ | ⟨hfree, index, htracked, hclear, _, _, haddr, _⟩ |
    ⟨hnotfull, hnotfree, index, huntracked, _, haddr, _⟩ := ppa_request_cases hsized
  · refine iff_of_true ⟨?_, ?_⟩ (.inr hfull)
    · intro hne
      exact absurd (by rw [h]) hne
    · intro _
      simp [h]
  · refine iff_of_true ⟨?_, ?_⟩ (.inl hfree)
    · intro _
      exact ⟨_, htracked, haddr⟩
    · intro hall
      rw [hall _ htracked] at hclear
      cases hclear
  · refine iff_of_false ?_ (by simp [hnotfull, hnotfree])
    intro hreported
    have hne : (ppaRequest s).1 ≠ 0 := by
      intro hzero
      rw [hzero] at haddr
      have hindex : index.toNat = 0 := by
        simpa using haddr
      exact huntracked (by rw [hindex]; exact Nat.zero_le _)
    obtain ⟨i, hi, hreturned⟩ := hreported.tracked hne
    obtain rfl : i = index.toNat := by omega
    exact huntracked hi

/-- A free frame can be had exactly when the words the scan visits hold one that is not frame 0. -/
theorem PpaState.Sized.free_frame_reachable (hsized : s.Sized) :
    FreeFrameReachable s ↔ ((∃ i, 1 ≤ i ∧ s.Tracked i ∧ s.bit i = false) →
      s.FreeAtHint ∧ (s.hintWord = 0 → s.bit 0 = true)) := by
  refine forall_congr' fun _ => ?_
  obtain ⟨hfull, h⟩ | ⟨hfree, index, htracked, hclear, hlo, hbefore, haddr, _⟩ |
    ⟨_, hnotfree, index, huntracked, _, haddr, _⟩ := ppa_request_cases hsized
  · refine iff_of_false ?_ (fun hcond => hfull.not_free hcond.1)
    rintro ⟨i, hreturns, _⟩
    exact hreturns.1 (by rw [h])
  · constructor
    · rintro ⟨i, ⟨hne, _⟩, _⟩
      -- the address is not 0, so the scan has skipped frame 0
      refine ⟨hfree, fun hword => ?_⟩
      have hpos : 0 < index.toNat := by
        by_contra hzero
        apply hne
        apply BitVec.eq_of_toNat_eq
        rw [haddr]
        simpa using hzero
      exact hbefore 0 (by omega) hpos
    · rintro ⟨_, hzero⟩
      refine ⟨index.toNat, ⟨?_, haddr⟩, htracked, hclear⟩
      intro hreturned
      rw [hreturned] at haddr
      have hindex : index.toNat = 0 := by
        simpa using haddr
      rw [hindex] at hlo hclear
      rw [hzero (by omega)] at hclear
      cases hclear
  · refine iff_of_false ?_ (fun hcond => hnotfree hcond.1)
    rintro ⟨i, ⟨_, hreturned⟩, hi, _⟩
    obtain rfl : i = index.toNat := by omega
    exact huntracked hi

/-- No bit of the bitmap past the last tracked frame is set. -/
def OnlyTracked (s : PpaState) : Prop :=
  ∀ i, i / 32 < s.bitmap.size.toNat → s.bit i = true → s.Tracked i

/-- Bits that are set for tracked frames only keep `OnlyTracked`. -/
theorem OnlyTracked.of_fixed {t : PpaState} (h : OnlyTracked s) (hfixed : t.fixed = s.fixed)
    (hbit : ∀ i, t.bit i = true → s.bit i = true ∨ s.Tracked i) : OnlyTracked t := by
  intro i hi hset
  rw [size_of_fixed hfixed] at hi
  rw [tracked_of_fixed hfixed]
  exact (hbit i hset).elim (h i hi) id

/-- The loop of a ranged lock keeps it. -/
theorem OnlyTracked.acquire_loop (h : OnlyTracked s) {account : Account} {addr : BitVec 64}
    {n : Nat} : OnlyTracked (acquireLoop account s addr n) :=
  h.of_fixed (acquire_loop_fixed n) (fun i hset =>
    ((bit_acquire_loop n i).mp hset).imp id And.left)

/-- A ranged release keeps it. -/
theorem OnlyTracked.release_n (h : OnlyTracked s) {account : Account} {addr n : BitVec 64} :
    OnlyTracked (s.proceed (releaseN account s addr n)) :=
  h.of_fixed release_n_fixed (fun _ hset => .inl (bit_of_bit_release_n hset))

/-- No call sets a bit past the last tracked frame. -/
theorem OnlyTracked.ppa_step (h : OnlyTracked s) (hsized : s.Sized) (op : PpaOp) :
    OnlyTracked (ppaStep s op) := by
  refine h.of_fixed (ppa_step_fixed s op) (fun i hset => ?_)
  cases op with
  | lck addr | rsv addr => exact ((bit_acquire i).mp hset).imp id And.left
  | lckn addr n | rsvn addr n => exact ((bit_acquire_loop _ i).mp hset).imp id And.left
  | ulck addr | ursv addr => exact .inl ((bit_release i).mp hset).1
  | ulckn addr n | ursvn addr n => exact .inl (bit_of_bit_release_n hset)
  | request => exact bit_ppa_request hsized hset

section Reach

variable (words : Nat → BitVec 32) {mmap : List EfiMemoryDescriptor}
  (reread : List EfiMemoryDescriptor)

/-- No bit past the last tracked frame is set in any state reached. -/
theorem only_tracked_reach (haccepted : Accepted mmap) (hmax : totalPages mmap < 2 ^ 36)
    (ops : List PpaOp) :
    OnlyTracked (ppaReach words mmap reread ops) := by
  have hcleared : OnlyTracked (ppaCleared words mmap) := by
    intro i hi hset
    have hgeometry := ppa_cleared_fixed words mmap
    simp only [fixed, Prod.mk.injEq] at hgeometry
    rw [hgeometry.1, bitmap_size_to_nat] at hi
    have hclear := bit_ppa_cleared words hmax (i := i) (by unfold totalPages; omega)
    rw [hclear] at hset
    cases hset
  -- every pass of `ppa_init` sets bits of tracked frames only
  have hunreserved : OnlyTracked (ppaUnreserved words mmap reread) := by
    have hreserved : OnlyTracked (ppaReserved words mmap) := hcleared.acquire_loop
    unfold ppaUnreserved
    generalize ppaReserved words mmap = t at hreserved
    clear hcleared
    induction reread generalizing t with
    | nil => exact hreserved
    | cons desc reread ih =>
        refine ih _ ?_
        unfold unreserveDescriptor
        split
        · exact hreserved.release_n
        · exact hreserved
  have hlocked : OnlyTracked (ppaLocked words mmap reread) := by
    have hlow : OnlyTracked (ppaLowReserved words mmap reread) := hunreserved.acquire_loop
    exact hlow.acquire_loop
  have hinit : OnlyTracked (ppaInit (ppaBoot words) mmap reread) := by
    rw [ppa_init_accepted words reread haccepted]
    generalize ppaLocked words mmap reread = t at hlocked
    exact hlocked
  have hsized := ppa_reach_sized words mmap reread []
  exact (Runs.run_invariant (fun t => OnlyTracked t ∧ t.Sized)
    (fun t op ht => ⟨ht.1.ppa_step ht.2 op, sized_ppa_step ht.2 op⟩) ⟨hinit, hsized⟩ ops).1

/-- The geometry of a reached state in numbers. -/
theorem reach_size (haccepted : Accepted mmap) (ops : List PpaOp) :
    (ppaReach words mmap reread ops).bitmap.size.toNat = totalPages mmap / 32 + 1 := by
  have hfixed := ppa_reach_fixed words reread ops haccepted
  simp only [fixed, Prod.mk.injEq] at hfixed
  rw [hfixed.1, bitmap_size_to_nat]
  rfl

/-- A scan never ends for want of a clear bit: the last word always has one past the last tracked
frame. Only a hint past the end of the bitmap makes a request return 0 without trying. -/
theorem full_at_hint_iff (haccepted : Accepted mmap) (hmin : 0 < totalPages mmap)
    (hmax : totalPages mmap < 2 ^ 36) (ops : List PpaOp) :
    (ppaReach words mmap reread ops).FullAtHint ↔
      totalPages mmap / 32 < (ppaReach words mmap reread ops).hintWord := by
  have htracked := only_tracked_reach words reread haccepted hmax ops
  have hsize := reach_size words reread haccepted ops
  have hframes := reach_frames words reread haccepted hmin ops
  constructor
  · intro hfull
    by_contra hword
    have hset := hfull (totalPages mmap) (by omega) (by omega)
    have hlast := htracked (totalPages mmap) (by omega) hset
    unfold Tracked at hlast
    unfold frames at hframes
    omega
  · intro hword i hlo hhi
    omega

end Reach

/-! ## Two failing runs -/

/-- After `ppa_init` on the map of 257 pages every tracked frame is taken, and the hint is in the
last word. -/
theorem not_in_scan_low_map (words : Nat → BitVec 32) :
    ¬ ((ppaReach words (lowMap 1) (lowMap 1) []).FreeAtHint ∨
      (ppaReach words (lowMap 1) (lowMap 1) []).FullAtHint) := by
  have haccepted : Accepted (lowMap 1) := by decide
  have htotal : totalPages (lowMap 1) = 257 := by decide
  have hreach : ppaReach words (lowMap 1) (lowMap 1) [] =
      ppaInit (ppaBoot words) (lowMap 1) (lowMap 1) := rfl
  have hhint : (ppaInit (ppaBoot words) (lowMap 1) (lowMap 1)).hintWord = 8 := by
    rw [hintWord, last_hit_low_map words (.inl rfl)]
    rfl
  have hframes := reach_frames words (lowMap 1) haccepted (by omega) []
  have hfull := full_at_hint_iff words (lowMap 1) haccepted (by omega) (by omega) []
  rw [hreach, hhint] at hfull
  rw [hreach] at hframes ⊢
  rintro (⟨i, htracked, hlo, _, hclear⟩ | hpast)
  · have hle : i ≤ 256 := by
      unfold Tracked at htracked
      unfold frames at hframes
      omega
    have hset := (bit_low_map words (.inl rfl) (Nat.lt_succ_of_le hle)).mpr hle
    rw [hset] at hclear
    cases hclear
  · have hword := hfull.mp hpast
    omega

/-- Locking frames 288 to 319 of the 64-page map, unlocking the last one and locking it again. -/
def hintPastFree : List PpaOp :=
  [.lckn 0x120000 32, .ulck 0x13f000, .lck 0x13f000]

/-- The three calls take the last word of tracked frames and leave the hint in it. -/
theorem run_hint_past_free (htracked : ∀ i, s.Tracked i ↔ i < 320)
    (hbit : ∀ i < 320, (s.bit i = true ↔ i ≤ 256)) :
    (Runs.run ppaStep s hintPastFree).lastHit = 319 ∧
      ∀ i < 320, ((Runs.run ppaStep s hintPastFree).bit i = true ↔ i ≤ 256 ∨ 288 ≤ i) := by
  have hrun : Runs.run ppaStep s hintPastFree =
      acquire .used (release .used (acquireN .used s 0x120000 32) 0x13f000) 0x13f000 := by
    rw [hintPastFree, Runs.run_cons, Runs.run_cons, Runs.run_cons, Runs.run_nil, ppa_step_lck,
      ppa_step_ulck, ppa_step_lckn]
  have hcount : (32 : BitVec 64).toNat = 32 := rfl
  rw [hrun, acquireN, hcount]
  have hframe : frameOf 0x13f000 = 319 := by decide
  have hstart : frameOf 0x120000 = 288 := by decide
  have hwrap : (0x120000 : BitVec 64).toNat + 4096 * 32 ≤ 2 ^ 64 := by decide
  have hlocked : ∀ i < 320, ((acquireLoop .used s 0x120000 32).bit i = true ↔
      i ≤ 256 ∨ 288 ≤ i) := by
    intro i hi
    rw [bit_acquire_loop, covers_iff_of_no_wrap hwrap, htracked, hbit i hi, hstart]
    omega
  constructor
  · rw [acquire_last_hit]
    -- the unlock moves the hint when it frees the frame, and the frame was locked before
    obtain ⟨_, _, hreleased⟩ | ⟨hfree, _⟩ :=
      release_cases .used (acquireLoop .used s 0x120000 32) 0x13f000
    · rw [hreleased]
      rfl
    · refine absurd ⟨?_, ?_⟩ hfree
      · rw [tracked_of_fixed (acquire_loop_fixed _), htracked, hframe]
        omega
      · rw [hframe, hlocked 319 (by omega)]
        omega
  · intro i hi
    have hlast := hlocked i hi
    rw [bit_acquire, bit_release, tracked_of_fixed release_fixed,
      tracked_of_fixed (acquire_loop_fixed _), htracked, hframe, hlast]
    omega

end SiStultum
