import SiStultum.Library.Bits

/-!
# The frame bitmap

The globals of `page_frames.c` and the two functions that read and write one bit of
`ppa_bitmap`. Frame `i` is tracked when `i <= ppa_bitmap._max_index`, and `bit s i` is
its bit. `ppa_bitmap_get_eq` and `bit_ppa_bitmap_set` describe the two functions by
`Tracked` and `bit`, and no later module looks inside a word of the bitmap again.
-/

namespace SiStultum

/-- `Bitmap` of `page_frames.h`. `data` is the address `_data` and `words i` is `_data[i]`. -/
structure Bitmap where
  size : BitVec 64
  maxIndex : BitVec 64
  data : BitVec 64
  words : Nat → BitVec 32

/-- The globals of `page_frames.c`. -/
structure PpaState where
  bitmap : Bitmap
  memUsed : BitVec 64
  memRsvd : BitVec 64
  memFree : BitVec 64
  memTotal : BitVec 64
  initialized : Bool
  lastHit : BitVec 64
  /-- A signed product has overflowed: what the program does from there on is undefined. -/
  overflowed : Bool := false

namespace PpaState

/-- Bit `i` of the bitmap, tracked or not. -/
def bit (s : PpaState) (i : Nat) : Bool :=
  (s.bitmap.words (i / 32)).getLsbD (i % 32)

/-- Frame `i` is inside the range the bitmap functions accept. -/
def Tracked (s : PpaState) (i : Nat) : Prop :=
  i ≤ s.bitmap.maxIndex.toNat

instance (s : PpaState) (i : Nat) : Decidable (s.Tracked i) :=
  inferInstanceAs (Decidable (_ ≤ _))

/-- Store a word of the bitmap. -/
def setWord (s : PpaState) (index : Nat) (word : BitVec 32) : PpaState :=
  { s with bitmap :=
      { s.bitmap with words := fun i => if i = index then word else s.bitmap.words i } }

/-- What no operation on an initialised allocator changes: the geometry of the bitmap and the
total. -/
def fixed (s : PpaState) : BitVec 64 × BitVec 64 × BitVec 64 × BitVec 64 × Bool :=
  (s.bitmap.size, s.bitmap.maxIndex, s.bitmap.data, s.memTotal, s.initialized)

/-- The counters `mem_used`, `mem_rsvd` and `mem_free`. -/
def counters (s : PpaState) : BitVec 64 × BitVec 64 × BitVec 64 :=
  (s.memUsed, s.memRsvd, s.memFree)

/-- A store to the bitmap keeps what `ppa_init` has fixed. -/
@[simp] theorem set_word_fixed (s : PpaState) (index : Nat) (word : BitVec 32) :
    (s.setWord index word).fixed = s.fixed := rfl

/-- A store to the bitmap keeps the counters. -/
@[simp] theorem set_word_counters (s : PpaState) (index : Nat) (word : BitVec 32) :
    (s.setWord index word).counters = s.counters := rfl

/-- A store to the bitmap changes one word. -/
theorem set_word_words (s : PpaState) (index : Nat) (word : BitVec 32) (j : Nat) :
    (s.setWord index word).bitmap.words j = if j = index then word else s.bitmap.words j := rfl

/-- The flag of `ppa_init` does not touch the bitmap. -/
theorem bit_initialized (s : PpaState) (i : Nat) :
    PpaState.bit { s with initialized := true } i = s.bit i := rfl

/-- The flag of `ppa_init` does not touch the hint. -/
theorem last_hit_initialized (s : PpaState) :
    PpaState.lastHit { s with initialized := true } = s.lastHit := rfl

section Fixed

variable {s t : PpaState} (h : s.fixed = t.fixed)
include h

/-- The size of the bitmap is fixed. -/
theorem size_of_fixed : s.bitmap.size = t.bitmap.size :=
  congrArg (fun f => f.1) h

/-- So is the number of its last page. -/
theorem max_index_of_fixed : s.bitmap.maxIndex = t.bitmap.maxIndex :=
  congrArg (fun f => f.2.1) h

/-- So is its place. -/
theorem data_of_fixed : s.bitmap.data = t.bitmap.data :=
  congrArg (fun f => f.2.2.1) h

/-- So is the size of the memory. -/
theorem mem_total_of_fixed : s.memTotal = t.memTotal :=
  congrArg (fun f => f.2.2.2.1) h

/-- So are the pages that it tracks. -/
theorem tracked_of_fixed (i : Nat) : s.Tracked i ↔ t.Tracked i := by
  rw [Tracked, Tracked, max_index_of_fixed h]

end Fixed

end PpaState

open PpaState

/-- `ppa_bitmap_set`: the value it returns and the state it leaves. -/
def ppaBitmapSet (s : PpaState) (index : BitVec 64) (setBit : Bool) : Bool × PpaState :=
  if index > s.bitmap.maxIndex then (false, s)
  else
    let mask := 1#32 <<< (index % 32).toNat
    let word := s.bitmap.words (index / 32).toNat
    let s := s.setWord (index / 32).toNat (if setBit then word ||| mask else word &&& ~~~mask)
    (decide (s.bitmap.words (index / 32).toNat &&& mask ≠ 0), s)

/-- `ppa_bitmap_get`. -/
def ppaBitmapGet (s : PpaState) (index : BitVec 64) : Bool :=
  if index > s.bitmap.maxIndex then false
  else
    let mask := 1#32 <<< (index % 32).toNat
    decide (s.bitmap.words (index / 32).toNat &&& mask ≠ 0)

/-- The number of the word that holds a bit. -/
theorem to_nat_div_32 (index : BitVec 64) : (index / 32).toNat = index.toNat / 32 := rfl

/-- The place of a bit in its word. -/
theorem to_nat_mod_32 (index : BitVec 64) : (index % 32).toNat = index.toNat % 32 := rfl

variable {s : PpaState}

/-- `ppa_bitmap_get` answers with the bit of a tracked frame, and with 0 for any other. -/
theorem ppa_bitmap_get_eq (index : BitVec 64) :
    ppaBitmapGet s index = (decide (s.Tracked index.toNat) && s.bit index.toNat) := by
  by_cases hgt : index > s.bitmap.maxIndex
  · have huntracked : ¬ s.Tracked index.toNat := by
      unfold Tracked
      bv_omega
    simp [ppaBitmapGet, hgt, huntracked]
  · have htracked : s.Tracked index.toNat := by
      unfold Tracked
      bv_omega
    have hmask := Bits.and_mask_ne_zero (s.bitmap.words (index / 32).toNat)
      (k := (index % 32).toNat) (by rw [to_nat_mod_32]; omega)
    have hbit : s.bit index.toNat =
        (s.bitmap.words (index / 32).toNat).getLsbD (index % 32).toNat := rfl
    simp only [ppaBitmapGet, hgt, ↓reduceIte, htracked, decide_true, Bool.true_and, hbit]
    rw [Bool.eq_iff_iff, decide_eq_true_iff, hmask]

/-- `ppa_bitmap_set` changes the bit of a tracked frame and no other bit. -/
theorem bit_ppa_bitmap_set (index : BitVec 64) (setBit : Bool) (j : Nat) :
    (ppaBitmapSet s index setBit).2.bit j =
      if s.Tracked index.toNat ∧ j = index.toNat then setBit else s.bit j := by
  by_cases hgt : index > s.bitmap.maxIndex
  · have huntracked : ¬ s.Tracked index.toNat := by
      unfold Tracked
      bv_omega
    simp [ppaBitmapSet, hgt, huntracked]
  · have htracked : s.Tracked index.toNat := by
      unfold Tracked
      bv_omega
    have hlt : j % 32 < 32 := Nat.mod_lt _ (by omega)
    simp only [ppaBitmapSet, hgt, ↓reduceIte, htracked, true_and, bit, setWord, to_nat_div_32,
      to_nat_mod_32]
    by_cases hsame : j / 32 = index.toNat / 32
    · by_cases hj : j = index.toNat
      · subst hj
        cases setBit <;>
          simp [Bits.get_lsb_or_mask _ _ hlt, Bits.get_lsb_and_not_mask _ _ hlt]
      · have hne : ¬ (j % 32 = index.toNat % 32) := by omega
        cases setBit <;>
          simp [Bits.get_lsb_or_mask _ _ hlt, Bits.get_lsb_and_not_mask _ _ hlt, hsame, hj, hne]
    · have hj : j ≠ index.toNat := fun h => hsame (by rw [h])
      simp [hsame, hj]

/-- `ppa_bitmap_set` keeps what `ppa_init` has fixed. -/
@[simp] theorem ppa_bitmap_set_fixed (index : BitVec 64) (setBit : Bool) :
    (ppaBitmapSet s index setBit).2.fixed = s.fixed := by
  unfold ppaBitmapSet
  split <;> rfl

/-- `ppa_bitmap_set` keeps the counters. -/
@[simp] theorem ppa_bitmap_set_counters (index : BitVec 64) (setBit : Bool) :
    (ppaBitmapSet s index setBit).2.counters = s.counters := by
  unfold ppaBitmapSet
  split <;> rfl

/-- `ppa_bitmap_set` keeps the hint. -/
@[simp] theorem ppa_bitmap_set_last_hit (index : BitVec 64) (setBit : Bool) :
    (ppaBitmapSet s index setBit).2.lastHit = s.lastHit := by
  unfold ppaBitmapSet
  split <;> rfl

/-- `ppa_bitmap_set` overflows nowhere. -/
@[simp] theorem ppa_bitmap_set_overflowed (index : BitVec 64) (setBit : Bool) :
    (ppaBitmapSet s index setBit).2.overflowed = s.overflowed := by
  unfold ppaBitmapSet
  split <;> rfl

end SiStultum
