import SiStultum.Library.ByteMemory

/-!
# Page directory entries and tables in memory

An entry packs a 40-bit frame number in bits 12..51 with flags. `entryTo frame` is the entry
that `pmm_map_memory` writes for a frame: present, writable, all other bits 0.
`addr_get_entry_to` and `addr_set_entry_to` say that the accessors of `page_map.c` decode and
re-encode it.

A table is 512 entries of eight bytes in one page of memory. `entry_store_same`,
`entry_store_other`, `entry_memset_same` and `entry_memset_other` are what the two kinds of
writes, a store of one entry and a `ppa_memset` of one page, do to every entry.
-/

namespace SiStultum

/-- A table entry. -/
abbrev PageDirectoryEntry := BitVec 64

/-- The flags are the enumerators of an `unsigned int`. -/
abbrev PdeBitFlag := BitVec 32

def pdeP : PdeBitFlag := 1 <<< 0

def pdeRW : PdeBitFlag := 1 <<< 1

/-- `pmm_flag_set`. The complement of the mask is taken at 32 bits, so clearing a flag also clears
the upper half of the entry. -/
def pmmFlagSet (entry : PageDirectoryEntry) (bitMask : PdeBitFlag) (val : BitVec 8) :
    PageDirectoryEntry :=
  if val ≠ 0 then entry ||| bitMask.setWidth 64 else entry &&& (~~~bitMask).setWidth 64

/-- `pmm_flag_get`. -/
def pmmFlagGet (entry : PageDirectoryEntry) (bitMask : PdeBitFlag) : Bool :=
  entry &&& bitMask.setWidth 64 == bitMask.setWidth 64

/-- `pmm_addr_set`. -/
def pmmAddrSet (entry : PageDirectoryEntry) (addr : BitVec 64) : PageDirectoryEntry :=
  (entry &&& 0xfff0000000000fff#64) ||| ((addr &&& 0x000000ffffffffff#64) <<< 12)

/-- `pmm_addr_get`. -/
def pmmAddrGet (entry : PageDirectoryEntry) : BitVec 64 :=
  (entry &&& 0x000ffffffffff000#64) >>> 12

/-- Bits 12..51 of an address, the part that an entry keeps. -/
def frameField (addr : BitVec 64) : BitVec 64 :=
  addr &&& 0x000ffffffffff000#64

/-- The present and writable entry for a frame. -/
def entryTo (frame : BitVec 64) : PageDirectoryEntry :=
  frameField frame ||| 3#64

/-! ## Encoding and decoding -/

/-- The bits of the mask of a frame's address. -/
theorem frame_mask_bit : ∀ i < 64,
    (0x000ffffffffff000#64).getLsbD i = (decide (12 ≤ i) && decide (i < 52)) := by
  decide

/-- The bits of the mask of a frame's number. -/
theorem frame_number_mask_bit : ∀ i < 64,
    (0x000000ffffffffff#64).getLsbD i = decide (i < 40) := by
  decide

/-- The bits of the mask that keeps the flags. -/
theorem flags_mask_bit : ∀ i < 64,
    (0xfff0000000000fff#64).getLsbD i = (decide (i < 12) || decide (52 ≤ i)) := by
  decide

/-- The bits of the two flags that are set. -/
theorem present_mask_bit : ∀ i < 64, (3#64).getLsbD i = decide (i < 2) := by
  decide

/-- A bit of an address survives in its frame field at the places 12..51. -/
theorem frame_field_bit (addr : BitVec 64) {i : Nat} (hi : i < 64) :
    (frameField addr).getLsbD i = (addr.getLsbD i && (decide (12 ≤ i) && decide (i < 52))) := by
  rw [frameField, BitVec.getLsbD_and, frame_mask_bit i hi]

/-- The bits of an entry that refers to a frame. -/
theorem entry_to_bit (frame : BitVec 64) {i : Nat} (hi : i < 64) :
    (entryTo frame).getLsbD i = ((frameField frame).getLsbD i || decide (i < 2)) := by
  rw [entryTo, BitVec.getLsbD_or, present_mask_bit i hi]

/-- Such an entry is present. -/
@[simp] theorem flag_get_entry_to (frame : BitVec 64) :
    pmmFlagGet (entryTo frame) pdeP = true := by
  rw [pmmFlagGet, beq_iff_eq]
  apply BitVec.eq_of_getLsbD_eq
  intro i hi
  rw [BitVec.getLsbD_and, entry_to_bit frame hi]
  by_cases h0 : i = 0
  · subst h0
    simp
  · have hflag : ∀ j < 64, j ≠ 0 → (pdeP.setWidth 64).getLsbD j = false := by decide
    rw [hflag i hi h0, Bool.and_false]

/-- The entry 0 is not present. -/
@[simp] theorem flag_get_zero : pmmFlagGet 0 pdeP = false := by
  decide

/-- Decoding an entry gives the frame field back. -/
theorem addr_get_entry_to (frame : BitVec 64) :
    pmmAddrGet (entryTo frame) <<< 12 = frameField frame := by
  apply BitVec.eq_of_getLsbD_eq
  intro i hi
  rw [frame_field_bit frame hi, BitVec.getLsbD_shiftLeft]
  by_cases h12 : i < 12
  · simp [h12, Nat.not_le_of_lt h12]
  · rw [pmmAddrGet, BitVec.getLsbD_ushiftRight, BitVec.getLsbD_and,
      show 12 + (i - 12) = i by omega, entry_to_bit frame hi, frame_field_bit frame hi,
      frame_mask_bit i hi]
    have h2 : ¬ i < 2 := by omega
    simp [h12, hi, h2]

/-- Setting the address and the flags of an entry that is 0 or was written for a frame. -/
theorem flag_set_addr_set {pde : PageDirectoryEntry}
    (hpde : ∀ i < 64, (i < 12 ∨ 52 ≤ i) → pde.getLsbD i = true → i < 2) (frame : BitVec 64) :
    pmmFlagSet (pmmAddrSet pde (frame >>> 12)) (pdeP ||| pdeRW) 1 = entryTo frame := by
  have hflags : (pdeP ||| pdeRW).setWidth 64 = 3#64 := by decide
  rw [pmmFlagSet, if_pos (by decide), hflags]
  apply BitVec.eq_of_getLsbD_eq
  intro i hi
  rw [entry_to_bit frame hi, frame_field_bit frame hi, BitVec.getLsbD_or, present_mask_bit i hi,
    pmmAddrSet, BitVec.getLsbD_or, BitVec.getLsbD_and, flags_mask_bit i hi,
    BitVec.getLsbD_shiftLeft]
  by_cases h12 : i < 12
  · by_cases h2 : i < 2
    · simp [h2]
    · have hclear : pde.getLsbD i = false := by
        by_contra hset
        exact h2 (hpde i hi (Or.inl h12) (by simpa using hset))
      simp [h12, h2, hclear, Nat.not_le_of_lt h12]
  · have h2 : ¬ i < 2 := by omega
    rw [BitVec.getLsbD_and, BitVec.getLsbD_ushiftRight, show 12 + (i - 12) = i by omega,
      frame_number_mask_bit (i - 12) (by omega)]
    by_cases h52 : i < 52
    · have hnumber : i - 12 < 40 := by omega
      simp [h12, h2, h52, hi, hnumber, Nat.le_of_not_lt h12, Nat.not_le_of_lt h52]
    · have hclear : pde.getLsbD i = false := by
        by_contra hset
        exact h2 (hpde i hi (Or.inr (by omega)) (by simpa using hset))
      have hnumber : ¬ i - 12 < 40 := by omega
      simp [h52, hclear, hnumber, h2]

/-- An address and flags that are set in an empty entry. -/
theorem flag_set_addr_set_zero (frame : BitVec 64) :
    pmmFlagSet (pmmAddrSet 0 (frame >>> 12)) (pdeP ||| pdeRW) 1 = entryTo frame :=
  flag_set_addr_set (by simp) frame

/-- They replace those of an earlier entry. -/
theorem flag_set_addr_set_entry_to (old frame : BitVec 64) :
    pmmFlagSet (pmmAddrSet (entryTo old) (frame >>> 12)) (pdeP ||| pdeRW) 1 = entryTo frame := by
  apply flag_set_addr_set
  intro i hi hout hset
  rw [entry_to_bit old hi, frame_field_bit old hi] at hset
  have hfield : (decide (12 ≤ i) && decide (i < 52)) = false := by
    rw [Bool.and_eq_false_iff, decide_eq_false_iff_not, decide_eq_false_iff_not]
    omega
  simpa [hfield] using hset

/-- The address of a page below 2 ^ 52 is its own frame field. -/
theorem frame_field_eq_self {frame : BitVec 64} (haligned : frame.toNat % 4096 = 0)
    (hsmall : frame.toNat < 2 ^ 52) : frameField frame = frame := by
  apply BitVec.eq_of_getLsbD_eq
  intro i hi
  rw [frame_field_bit frame hi]
  by_cases h12 : i < 12
  · have hlow : frame.getLsbD i = false := by
      have hmod : frame.toNat.testBit i = (frame.toNat % 2 ^ 12).testBit i := by
        rw [Nat.testBit_mod_two_pow, decide_eq_true h12, Bool.true_and]
      rw [BitVec.getLsbD, hmod, show frame.toNat % 2 ^ 12 = 0 by omega, Nat.zero_testBit]
    rw [hlow, Bool.false_and]
  · by_cases h52 : i < 52
    · simp [h52, Nat.le_of_not_lt h12]
    · have hhigh : frame.getLsbD i = false :=
        Nat.testBit_lt_two_pow (Nat.lt_of_lt_of_le hsmall
          (Nat.pow_le_pow_right (by omega) (by omega)))
      rw [hhigh, Bool.false_and]

/-! ## Tables -/

/-- The loop of `ppa_memset` on the bytes that remain. -/
def ppaMemsetLoop (mem : ByteMemory) (ptr : BitVec 64) (val : BitVec 8) : Nat → ByteMemory
  | 0 => mem
  | len + 1 => ppaMemsetLoop (fun byte => if byte = ptr then val else mem byte) (ptr + 1) val len

/-- `ppa_memset`: the memory it leaves. -/
def ppaMemset (mem : ByteMemory) (dest : BitVec 64) (val : BitVec 8) (len : BitVec 64) :
    ByteMemory :=
  ppaMemsetLoop mem dest val len.toNat

/-- `table->entries[index]`. -/
def tableEntry (mem : ByteMemory) (table index : BitVec 64) : PageDirectoryEntry :=
  mem.read (table + 8 * index) 8

/-- `table->entries[index] = pde`. -/
def storeEntry (mem : ByteMemory) (table index : BitVec 64) (pde : PageDirectoryEntry) :
    ByteMemory :=
  mem.write (table + 8 * index) 8 pde

/-- The address of a page. -/
def PageAligned (addr : BitVec 64) : Prop :=
  addr.toNat % 4096 = 0

instance (addr : BitVec 64) : Decidable (PageAligned addr) :=
  inferInstanceAs (Decidable (addr.toNat % 4096 = 0))

/-- The byte loop fills the range. -/
theorem memset_loop_eq_fill (val : BitVec 8) (len : Nat) (hlen : len < 2 ^ 64) :
    ∀ mem ptr, ppaMemsetLoop mem ptr val len = ByteMemory.fill mem ptr len val := by
  induction len with
  | zero =>
      intro mem ptr
      funext byte
      simp [ppaMemsetLoop, ByteMemory.fill]
  | succ len ih =>
      intro mem ptr
      rw [ppaMemsetLoop, ih (by omega)]
      funext byte
      unfold ByteMemory.fill
      by_cases hfirst : byte = ptr
      · subst hfirst
        simp
      · have hoffset : (byte - (ptr + 1)).toNat < len ↔ (byte - ptr).toNat < len + 1 := by
          bv_omega
        simp only [hoffset, if_neg hfirst]

/-- `ppa_memset` fills the bytes from its destination on. -/
theorem memset_eq_fill (mem : ByteMemory) (dest : BitVec 64) (val : BitVec 8) (len : BitVec 64) :
    ppaMemset mem dest val len = ByteMemory.fill mem dest len.toNat val :=
  memset_loop_eq_fill val len.toNat len.isLt mem dest

variable {mem : ByteMemory} {table other index position : BitVec 64}

/-- Two different entries, of one table or of two, do not overlap. -/
theorem entries_disjoint (htable : PageAligned table) (hother : PageAligned other)
    (hindex : index.toNat < 512) (hposition : position.toNat < 512)
    (hne : table ≠ other ∨ index ≠ position) :
    ByteMemory.Disjoint (table + 8 * index) 8 (other + 8 * position) 8 := by
  unfold PageAligned at htable hother
  unfold ByteMemory.Disjoint
  bv_omega

/-- An entry outside a page does not overlap it. -/
theorem page_entry_disjoint (htable : PageAligned table) (hother : PageAligned other)
    (hposition : position.toNat < 512) (hne : table ≠ other) :
    ByteMemory.Disjoint table 4096 (other + 8 * position) 8 := by
  unfold PageAligned at htable hother
  unfold ByteMemory.Disjoint
  bv_omega

/-- An entry that is stored is read back. -/
theorem entry_store_same (pde : PageDirectoryEntry) :
    tableEntry (storeEntry mem table index pde) table index = pde :=
  ByteMemory.read_write_same (n := 8) (by decide) pde

/-- Storing an entry keeps the others. -/
theorem entry_store_other (htable : PageAligned table) (hother : PageAligned other)
    (hindex : index.toNat < 512) (hposition : position.toNat < 512)
    (hne : table ≠ other ∨ index ≠ position) (pde : PageDirectoryEntry) :
    tableEntry (storeEntry mem table index pde) other position = tableEntry mem other position :=
  ByteMemory.read_write_other (n := 8) (m := 8) pde
    (entries_disjoint htable hother hindex hposition hne)

/-- A table that is cleared has only empty entries. -/
theorem entry_memset_same (hposition : position.toNat < 512) :
    tableEntry (ppaMemset mem table 0 4096) table position = 0 := by
  rw [tableEntry, memset_eq_fill]
  apply ByteMemory.read_fill_zero
  intro k hk
  bv_omega

/-- Clearing a table keeps the entries of the others. -/
theorem entry_memset_other (htable : PageAligned table) (hother : PageAligned other)
    (hposition : position.toNat < 512) (hne : table ≠ other) :
    tableEntry (ppaMemset mem table 0 4096) other position = tableEntry mem other position := by
  rw [tableEntry, memset_eq_fill]
  exact ByteMemory.read_fill_outside (m := 8) 0 (page_entry_disjoint htable hother hposition hne)

end SiStultum
