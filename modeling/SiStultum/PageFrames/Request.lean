import SiStultum.Library.Search
import SiStultum.PageFrames.Operations

/-!
# Finding a free frame

`ppa_request` walks the words of the bitmap from the word of `last_hit` to the last
one, skips the words whose bits are all set, and takes the first index of the first
remaining word that `ppa_bitmap_get` calls free. `scan_eq_none_iff` says when it finds
nothing, and `scan_eq_some` says what it finds: `ppa_bitmap_get` also calls the indices
past `_max_index` free, so the index found need not be tracked.

`PpaOp` lists the nine calls and `step` executes one.
-/

namespace SiStultum

open PpaState

/-- The body of the outer loop of `ppa_request`: the first index of one word that
`ppa_bitmap_get` calls free, unless every bit of the word is set. -/
def ppaScanWord (s : PpaState) (indexHi : Nat) : Option (BitVec 64) :=
  if ~~~s.bitmap.words indexHi = 0 then none
  else (List.range 32).findSome? fun indexLo =>
    let index := BitVec.ofNat 64 (indexHi * 32 + indexLo)
    if ppaBitmapGet s index then none else some index

/-- The first index the two nested loops of `ppa_request` accept. -/
def ppaScan (s : PpaState) : Option (BitVec 64) :=
  let first := (s.lastHit >>> 5).toNat
  (List.range' first (s.bitmap.size.toNat - first)).findSome? (ppaScanWord s)

/-- `ppa_request`: the address it returns and the state it leaves. -/
def ppaRequest (s : PpaState) : BitVec 64 × PpaState :=
  match ppaScan s with
  | some index => (index * 4096, ppaLck { s with lastHit := index } (index * 4096))
  | none => (0, s)

/-- The bitmap has at most `2 ^ 52` bits, so every index below its end is a frame number of a
64-bit address. -/
def PpaState.Sized (s : PpaState) : Prop :=
  32 * s.bitmap.size.toNat ≤ 2 ^ 52

/-- Every index below the end of the bitmap fits in 64 bits. -/
def PpaState.Indexed (s : PpaState) : Prop :=
  32 * s.bitmap.size.toNat ≤ 2 ^ 64

variable {s : PpaState}

/-- A bitmap within its size has an index for each of its bits. -/
theorem PpaState.Sized.indexed (h : s.Sized) : s.Indexed := by
  unfold Sized at h
  unfold Indexed
  omega

/-- The word the scan starts at. -/
def PpaState.hintWord (s : PpaState) : Nat :=
  s.lastHit.toNat / 32

/-- The word in which the scan begins. -/
theorem hint_word_eq : (s.lastHit >>> 5).toNat = s.hintWord := by
  rw [hintWord, BitVec.toNat_ushiftRight, Nat.shiftRight_eq_div_pow]

/-- `ppa_bitmap_get` at an index of a word below the end of the bitmap. -/
theorem ppa_bitmap_get_word (hroom : s.Indexed) {word low : Nat}
    (hword : word < s.bitmap.size.toNat) (hlow : low < 32) :
    ppaBitmapGet s (BitVec.ofNat 64 (word * 32 + low)) =
      (decide (s.Tracked (word * 32 + low)) && s.bit (word * 32 + low)) := by
  have hindex : (BitVec.ofNat 64 (word * 32 + low)).toNat = word * 32 + low := by
    unfold Indexed at hroom
    rw [BitVec.toNat_ofNat]
    omega
  rw [ppa_bitmap_get_eq, hindex]

/-- The bits of word `word` are the bits `32 * word, .., 32 * word + 31`. -/
theorem bit_word (word : Nat) {low : Nat} (hlow : low < 32) :
    s.bit (word * 32 + low) = (s.bitmap.words word).getLsbD low := by
  have hdiv : (word * 32 + low) / 32 = word := by omega
  have hmod : (word * 32 + low) % 32 = low := by omega
  rw [bit, hdiv, hmod]

/-- A word whose bits are all set has the complement 0, and conversely. -/
theorem not_word_eq_zero_iff (word : Nat) :
    ~~~s.bitmap.words word = 0 ↔ ∀ i, i / 32 = word → s.bit i = true := by
  constructor
  · rintro hfull i rfl
    exact Bits.get_lsb_of_not_eq_zero hfull (Nat.mod_lt _ (by omega))
  · intro hset
    by_contra hne
    obtain ⟨low, hlow, hclear⟩ := Bits.exists_clear_of_not_ne_zero hne
    have hbit := hset (word * 32 + low) (by omega)
    rw [bit_word word hlow, hclear] at hbit
    exact Bool.noConfusion hbit

/-- The search of a word finds nothing exactly when every bit of the word is set. -/
theorem scan_word_eq_none_iff (hroom : s.Indexed) {word : Nat}
    (hword : word < s.bitmap.size.toNat) :
    ppaScanWord s word = none ↔ ∀ i, i / 32 = word → s.bit i = true := by
  unfold ppaScanWord
  rw [← not_word_eq_zero_iff]
  split
  · next hfull => simp [hfull]
  · next hclear =>
      simp only [hclear, iff_false, List.findSome?_eq_none_iff, List.mem_range]
      intro hnone
      apply hclear
      rw [not_word_eq_zero_iff]
      rintro i rfl
      have hlow : i % 32 < 32 := Nat.mod_lt _ (by omega)
      have hget := hnone (i % 32) hlow
      rw [ppa_bitmap_get_word hroom hword hlow, show i / 32 * 32 + i % 32 = i by omega] at hget
      by_contra hbit
      simp [hbit] at hget

/-- What the search of a word finds: an index that is free or out of range, after indices that are
tracked and taken. -/
theorem scan_word_eq_some (hroom : s.Indexed) {word : Nat} (hword : word < s.bitmap.size.toNat)
    {index : BitVec 64} (h : ppaScanWord s word = some index) :
    index.toNat / 32 = word ∧ (s.Tracked index.toNat → s.bit index.toNat = false) ∧
      ∀ j, j / 32 = word → j < index.toNat → s.bit j = true := by
  unfold ppaScanWord at h
  split at h
  · cases h
  rw [List.range_eq_range'] at h
  obtain ⟨low, _, hlow, hget, htaken⟩ := Search.find_some_range_eq_some_iff.mp h
  rw [Nat.zero_add] at hlow
  simp only at hget htaken
  rw [ppa_bitmap_get_word hroom hword hlow] at hget
  split at hget
  · cases hget
  next hfree =>
  have hindex : index.toNat = word * 32 + low := by
    rw [← Option.some.inj hget, BitVec.toNat_ofNat]
    unfold Indexed at hroom
    omega
  rw [hindex]
  refine ⟨by omega, ?_, ?_⟩
  · intro htracked
    simpa [htracked] using hfree
  · intro j hj hlt
    have hpassed := htaken (j % 32) (by omega) (by omega)
    rw [ppa_bitmap_get_word hroom hword (Nat.mod_lt _ (by omega)),
      show word * 32 + j % 32 = j by omega] at hpassed
    by_contra hclear
    simp [hclear] at hpassed

/-- The scan finds nothing exactly when every bit of every word it visits is set. -/
theorem scan_eq_none_iff (hroom : s.Indexed) :
    ppaScan s = none ↔
      ∀ i, s.hintWord ≤ i / 32 → i / 32 < s.bitmap.size.toNat → s.bit i = true := by
  unfold ppaScan
  rw [hint_word_eq]
  simp only [List.findSome?_eq_none_iff, List.mem_range'_1]
  constructor
  · intro hnone i hlo hhi
    exact (scan_word_eq_none_iff hroom hhi).mp (hnone (i / 32) ⟨hlo, by omega⟩) i rfl
  · rintro hset word ⟨hlo, hhi⟩
    rw [scan_word_eq_none_iff hroom (by omega)]
    rintro i rfl
    exact hset i hlo (by omega)

/-- What the scan finds: an index at or after the hint's word that is free or out of range. Every
bit between the hint's word and that index is set. -/
theorem scan_eq_some (hroom : s.Indexed) {index : BitVec 64} (h : ppaScan s = some index) :
    s.hintWord ≤ index.toNat / 32 ∧ index.toNat / 32 < s.bitmap.size.toNat ∧
      (s.Tracked index.toNat → s.bit index.toNat = false) ∧
      ∀ j, s.hintWord ≤ j / 32 → j < index.toNat → s.bit j = true := by
  unfold ppaScan at h
  rw [hint_word_eq] at h
  obtain ⟨word, hlo, hhi, hword, hskipped⟩ := Search.find_some_range_eq_some_iff.mp h
  obtain ⟨hindex, hfree, htaken⟩ := scan_word_eq_some hroom (by omega) hword
  refine ⟨by omega, by omega, hfree, fun j hjlo hjhi => ?_⟩
  by_cases hsame : j / 32 = word
  · exact htaken j hsame hjhi
  · have hpassed := hskipped (j / 32) hjlo (by omega)
    exact (scan_word_eq_none_iff hroom (by omega)).mp hpassed j rfl

/-- A tracked frame of the words the scan visits is free. -/
def PpaState.FreeAtHint (s : PpaState) : Prop :=
  ∃ i, s.Tracked i ∧ s.hintWord ≤ i / 32 ∧ i / 32 < s.bitmap.size.toNat ∧ s.bit i = false

/-- Every bit of the words the scan visits is set, those past the last tracked frame included. -/
def PpaState.FullAtHint (s : PpaState) : Prop :=
  ∀ i, s.hintWord ≤ i / 32 → i / 32 < s.bitmap.size.toNat → s.bit i = true

/-- With all these bits set no frame from the hint on is free. -/
theorem PpaState.FullAtHint.not_free (h : s.FullAtHint) : ¬ s.FreeAtHint := by
  rintro ⟨i, _, hlo, hhi, hclear⟩
  rw [h i hlo hhi] at hclear
  cases hclear

/-! ## The call -/

/-- The address of an index below the end of the bitmap is in the frame of that number. -/
theorem frame_of_index (hsized : s.Sized) {index : BitVec 64}
    (h : index.toNat / 32 < s.bitmap.size.toNat) :
    (index * 4096).toNat = 4096 * index.toNat ∧ frameOf (index * 4096) = index.toNat := by
  unfold Sized at hsized
  have hmul : (index * 4096).toNat = 4096 * index.toNat := by bv_omega
  exact ⟨hmul, by rw [frameOf, hmul]; omega⟩

/-- A request keeps what `ppa_init` has fixed. -/
@[simp] theorem ppa_request_fixed : (ppaRequest s).2.fixed = s.fixed := by
  unfold ppaRequest
  split
  · exact acquire_fixed
  · rfl

/-- The frame of the address that a request returns. -/
theorem index_of_address (hsized : s.Sized) {index : BitVec 64}
    (h : index.toNat / 32 < s.bitmap.size.toNat) : index * 4096 / 4096 = index :=
  BitVec.eq_of_toNat_eq (frame_of_index hsized h).2

/-- What the scan finds is remembered, and the page at its address is locked. -/
theorem ppa_request_found {index : BitVec 64} (hscan : ppaScan s = some index) :
    (ppaRequest s).1 = index * 4096 ∧
      (ppaRequest s).2 = acquire .used { s with lastHit := index } (index * 4096) := by
  simp [ppaRequest, hscan, ppaLck]

/-- The lock of a free tracked frame that the scan finds sets its bit and charges for it. -/
theorem ppa_request_takes {index : BitVec 64} (hscan : ppaScan s = some index)
    (hindex : index * 4096 / 4096 = index) (htracked : s.Tracked index.toNat)
    (hclear : s.bit index.toNat = false) :
    (ppaRequest s).2 = (ppaBitmapSet { s with lastHit := index } index true).2.charge .used := by
  have hframe : frameOf (index * 4096) = index.toNat := by
    rw [← to_nat_div_4096, hindex]
  have hcases := acquire_cases .used { s with lastHit := index } (index * 4096)
  rw [hframe, hindex] at hcases
  rw [(ppa_request_found hscan).2]
  -- of the three cases of a lock only the one of a free tracked frame is left
  obtain ⟨_, hset, _⟩ | ⟨_, _, hstate⟩ | ⟨huntracked, _⟩ := hcases
  · have hbit : s.bit index.toNat = true := hset
    rw [hclear] at hbit
    cases hbit
  · exact hstate
  · exact absurd htracked huntracked

/-- Everything a request can do. When all the bits it visits are set it returns 0 and changes
nothing. When it reaches a free tracked frame it returns the first one and takes it. Otherwise it
returns an address out of range and charges for it. -/
theorem ppa_request_cases (hsized : s.Sized) :
    (s.FullAtHint ∧ ppaRequest s = (0, s)) ∨
    (s.FreeAtHint ∧ ∃ index : BitVec 64, s.Tracked index.toNat ∧ s.bit index.toNat = false ∧
      s.hintWord ≤ index.toNat / 32 ∧
      (∀ j, s.hintWord ≤ j / 32 → j < index.toNat → s.bit j = true) ∧
      (ppaRequest s).1.toNat = 4096 * index.toNat ∧
      (ppaRequest s).2 =
        (ppaBitmapSet { s with lastHit := index } index true).2.charge .used) ∨
    (¬ s.FullAtHint ∧ ¬ s.FreeAtHint ∧ ∃ index : BitVec 64, ¬ s.Tracked index.toNat ∧
      index.toNat < 32 * s.bitmap.size.toNat ∧ (ppaRequest s).1.toNat = 4096 * index.toNat ∧
      (ppaRequest s).2 = PpaState.charge .used { s with lastHit := index }) := by
  cases hscan : ppaScan s with
  | none =>
      refine .inl ⟨(scan_eq_none_iff hsized.indexed).mp hscan, ?_⟩
      simp [ppaRequest, hscan]
  | some index =>
      obtain ⟨hlo, hend, hfree, hbefore⟩ := scan_eq_some hsized.indexed hscan
      obtain ⟨haddr, hframe⟩ := frame_of_index hsized hend
      have hindex := index_of_address hsized hend
      obtain ⟨hfirst, hsecond⟩ := ppa_request_found hscan
      have hnotfull : ¬ s.FullAtHint := by
        intro hfull
        rw [(scan_eq_none_iff hsized.indexed).mpr hfull] at hscan
        cases hscan
      rw [hfirst, haddr]
      by_cases htracked : s.Tracked index.toNat
      · have hclear := hfree htracked
        exact .inr (.inl ⟨⟨_, htracked, hlo, hend, hclear⟩, index, htracked, hclear, hlo, hbefore,
          rfl, ppa_request_takes hscan hindex htracked hclear⟩)
      · have hnotfree : ¬ s.FreeAtHint := by
          rintro ⟨i, hi, hihint, _, hiclear⟩
          -- a free tracked frame lies below an index out of range, where every bit is set
          have hlt : i < index.toNat := by
            unfold Tracked at htracked hi
            omega
          rw [hbefore i hihint hlt] at hiclear
          cases hiclear
        have hcases := acquire_cases .used { s with lastHit := index } (index * 4096)
        rw [hframe] at hcases
        obtain ⟨hin, _⟩ | ⟨hin, _⟩ | ⟨_, hstate⟩ := hcases
        · exact absurd hin htracked
        · exact absurd hin htracked
        · exact .inr (.inr ⟨hnotfull, hnotfree, index, htracked, by omega, rfl,
            hsecond.trans hstate⟩)

/-- A request sets no bit past the last tracked frame. -/
theorem bit_ppa_request (hsized : s.Sized) {j : Nat} (h : (ppaRequest s).2.bit j = true) :
    s.bit j = true ∨ s.Tracked j := by
  obtain ⟨_, hsame⟩ | ⟨_, index, htracked, _, _, _, _, hstate⟩ | ⟨_, _, index, _, _, _, hstate⟩ :=
    ppa_request_cases hsized
  · rw [hsame] at h
    exact .inl h
  · rw [hstate, charge_bit, bit_ppa_bitmap_set] at h
    split at h
    · next hj => exact .inr (hj.2 ▸ htracked)
    · exact .inl h
  · rw [hstate, charge_bit] at h
    exact .inl h

/-! ## Calls -/

/-- The calls other code makes on an initialised allocator. -/
inductive PpaOp where
  | lck (addr : BitVec 64)
  | lckn (addr n : BitVec 64)
  | ulck (addr : BitVec 64)
  | ulckn (addr n : BitVec 64)
  | rsv (addr : BitVec 64)
  | rsvn (addr n : BitVec 64)
  | ursv (addr : BitVec 64)
  | ursvn (addr n : BitVec 64)
  | request
  deriving DecidableEq, Repr

/-- The state one call leaves. -/
def ppaStep (s : PpaState) : PpaOp → PpaState
  | .lck addr => ppaLck s addr
  | .lckn addr n => ppaLckn s addr n
  | .ulck addr => ppaUlck s addr
  | .ulckn addr n => s.proceed (ppaUlckn s addr n)
  | .rsv addr => ppaRsv s addr
  | .rsvn addr n => ppaRsvn s addr n
  | .ursv addr => ppaUrsv s addr
  | .ursvn addr n => s.proceed (ppaUrsvn s addr n)
  | .request => (ppaRequest s).2

/-- `ppa_lck` acquires a used page. -/
theorem ppa_step_lck (s : PpaState) (addr : BitVec 64) :
    ppaStep s (.lck addr) = acquire .used s addr := rfl

/-- `ppa_lckn` acquires used pages. -/
theorem ppa_step_lckn (s : PpaState) (addr n : BitVec 64) :
    ppaStep s (.lckn addr n) = acquireN .used s addr n := rfl

/-- `ppa_ulck` releases a used page. -/
theorem ppa_step_ulck (s : PpaState) (addr : BitVec 64) :
    ppaStep s (.ulck addr) = release .used s addr := rfl

end SiStultum
