import Mathlib.Order.Bounds.Basic
import SiStultum.PageFrames.Request

/-!
# A request takes the first free frame

Skipping the words whose bits are all set does not change what a request finds: from the word of
`last_hit` on, it takes the least tracked frame whose bit is clear (`ppa_request_first_free`).
-/

namespace SiStultum

open PpaState

/-- The bitmap is the one that `ppa_init_bitmap` lays out for `pages` frames. -/
structure BitmapOf (s : PpaState) (pages : Nat) : Prop where
  pos : 1 ≤ pages
  le_bound : pages ≤ 2 ^ 52
  size : s.bitmap.size.toNat = pages / 32 + 1
  max_index : s.bitmap.maxIndex.toNat = pages - 1

/-- The tracked frames that a plain scan of the bits from the word of `last_hit` on would accept. -/
def PpaState.freeFromHint (s : PpaState) : Set Nat :=
  {i | s.Tracked i ∧ 32 * (s.lastHit.toNat / 32) ≤ i ∧ s.bit i = false}

/-- A request takes frame `index`: it returns its address, sets its bit, remembers it and moves one
page from `mem_free` to `mem_used`. -/
structure RequestTakes (s : PpaState) (index : Nat) : Prop where
  address : (ppaRequest s).1.toNat = 4096 * index
  bit : ∀ j, (ppaRequest s).2.bit j = if j = index then true else s.bit j
  last_hit : (ppaRequest s).2.lastHit.toNat = index
  mem_used : (ppaRequest s).2.memUsed = s.memUsed + 4096
  mem_free : (ppaRequest s).2.memFree = s.memFree - 4096
  mem_rsvd : (ppaRequest s).2.memRsvd = s.memRsvd
  fixed : (ppaRequest s).2.fixed = s.fixed

variable {s : PpaState} {pages : Nat}

/-- A bitmap of a map has its last index in its last word. -/
theorem BitmapOf.indexed (h : BitmapOf s pages) : s.Indexed := by
  have hsize := h.size
  have hbound := h.le_bound
  unfold Indexed
  omega

/-- A tracked frame has its bit in the bitmap. -/
theorem BitmapOf.word_lt (h : BitmapOf s pages) {i : Nat} (htracked : s.Tracked i) :
    i / 32 < s.bitmap.size.toNat := by
  have hsize := h.size
  have hmax := h.max_index
  unfold Tracked at htracked
  omega

/-- The scan stops at the least free tracked frame when there is one. -/
theorem scan_first_free (h : BitmapOf s pages) (hfree : s.freeFromHint.Nonempty) :
    ∃ index : BitVec 64, ppaScan s = some index ∧ IsLeast s.freeFromHint index.toNat := by
  obtain ⟨i, htracked, hhint, hclear⟩ := hfree
  have hword : s.hintWord ≤ i / 32 := by
    unfold hintWord
    omega
  cases hscan : ppaScan s with
  | none =>
      have hset := (scan_eq_none_iff h.indexed).mp hscan i hword (h.word_lt htracked)
      rw [hclear] at hset
      cases hset
  | some index =>
      obtain ⟨hlow, _, hfirst, hbefore⟩ := scan_eq_some h.indexed hscan
      have hleast : ∀ j ∈ s.freeFromHint, index.toNat ≤ j := by
        rintro j ⟨_, hj, hjclear⟩
        by_contra hlt
        have hset := hbefore j (by unfold hintWord; omega) (by omega)
        rw [hjclear] at hset
        cases hset
      have hindex : s.Tracked index.toNat := by
        have hle := hleast i ⟨htracked, hhint, hclear⟩
        unfold Tracked at htracked ⊢
        omega
      refine ⟨index, rfl, ⟨hindex, ?_, hfirst hindex⟩, hleast⟩
      unfold hintWord at hlow
      omega

/-- The address of a tracked frame is in that frame. -/
theorem BitmapOf.frame_of_tracked (h : BitmapOf s pages) {index : BitVec 64}
    (htracked : s.Tracked index.toNat) :
    (index * 4096).toNat = 4096 * index.toNat ∧ index * 4096 / 4096 = index := by
  have hmax := h.max_index
  have hbound := h.le_bound
  have hpos := h.pos
  unfold Tracked at htracked
  have hmul : (index * 4096).toNat = 4096 * index.toNat := by bv_omega
  refine ⟨hmul, BitVec.eq_of_toNat_eq ?_⟩
  rw [to_nat_div_4096, frameOf, hmul]
  omega

/-- A request takes the least tracked frame that is free, from the word of `last_hit` on. -/
theorem ppa_request_first_free (h : BitmapOf s pages) (hfree : s.freeFromHint.Nonempty) :
    ∃ index, IsLeast s.freeFromHint index ∧ RequestTakes s index := by
  obtain ⟨index, hscan, hleast⟩ := scan_first_free h hfree
  obtain ⟨htracked, _, hclear⟩ := hleast.1
  obtain ⟨haddr, hindex⟩ := h.frame_of_tracked htracked
  have hfirst := (ppa_request_found hscan).1
  have hsecond := ppa_request_takes hscan hindex htracked hclear
  have hcounters := ppa_bitmap_set_counters (s := { s with lastHit := index }) index true
  simp only [counters, Prod.mk.injEq] at hcounters
  refine ⟨index.toNat, hleast, ?_⟩
  constructor
  · rw [hfirst, haddr]
  · intro j
    rw [hsecond, charge_bit, bit_ppa_bitmap_set]
    have hbits : PpaState.bit { s with lastHit := index } = s.bit := rfl
    have htrack : PpaState.Tracked { s with lastHit := index } index.toNat := htracked
    simp [hbits, htrack]
  · rw [hsecond, charge_last_hit, ppa_bitmap_set_last_hit]
  · rw [hsecond]
    simp only [charge, hcounters.1]
  · rw [hsecond, charge_mem_free, hcounters.2.2]
  · rw [hsecond, charge_used_mem_rsvd, hcounters.2.1]
  · rw [hsecond, charge_fixed, ppa_bitmap_set_fixed]
    rfl

/-- 33 frames, all taken but the last one, which is alone in its word. -/
def lastFrameFree : PpaState where
  bitmap := ⟨2, 32, 0x100000, fun i => if i = 0 then BitVec.allOnes 32 else 0⟩
  memUsed := 32 * 4096
  memRsvd := 0
  memFree := 4096
  memTotal := 33 * 4096
  initialized := true
  lastHit := 7

/-- With one frame free the request takes that one. -/
theorem last_frame_requested :
    ∃ index, IsLeast lastFrameFree.freeFromHint index ∧ RequestTakes lastFrameFree index :=
  ppa_request_first_free (show BitmapOf lastFrameFree 33 from ⟨by decide, by decide, rfl, rfl⟩)
    ⟨32, by decide, by decide, by decide⟩

end SiStultum
