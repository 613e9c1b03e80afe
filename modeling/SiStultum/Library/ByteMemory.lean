import Mathlib.Algebra.Order.Ring.Int
import Mathlib.Tactic.Common

/-!
# A flat byte-addressed memory

A memory gives a byte for every 64-bit address. `read` and `write` access `n` bytes in
little-endian order at addresses that wrap at 64 bits, and `fill` sets a range to one
byte. `Copied` says that a range holds the bytes of a range of another memory. `read_write_same`,
`read_write_other`, `read_fill_zero`, `read_fill_outside` and `Copied.read` are the algebra that
programs over the memory are verified with.
-/

/-- One byte for every address. -/
abbrev ByteMemory := BitVec 64 → BitVec 8

namespace ByteMemory

/-- The `n` bytes from `addr` on, the first one least significant. -/
def read (memory : ByteMemory) (addr : BitVec 64) : (n : Nat) → BitVec (8 * n)
  | 0 => 0#0
  | n + 1 => memory.read (addr + 1) n ++ memory addr

/-- Store the `n` bytes of a value from `addr` on, the least significant one first. -/
def write (memory : ByteMemory) (addr : BitVec 64) (n : Nat) (value : BitVec (8 * n)) :
    ByteMemory :=
  fun byte =>
    if (byte - addr).toNat < n then value.extractLsb' (8 * (byte - addr).toNat) 8
    else memory byte

/-- Set the `n` bytes from `addr` on to one value. -/
def fill (memory : ByteMemory) (addr : BitVec 64) (n : Nat) (value : BitVec 8) : ByteMemory :=
  fun byte => if (byte - addr).toNat < n then value else memory byte

/-- The ranges of `n` bytes from `addr` and of `m` bytes from `other` have no byte in common. -/
def Disjoint (addr : BitVec 64) (n : Nat) (other : BitVec 64) (m : Nat) : Prop :=
  n ≤ (other - addr).toNat ∧ m ≤ (addr - other).toNat

instance (addr : BitVec 64) (n : Nat) (other : BitVec 64) (m : Nat) :
    Decidable (Disjoint addr n other m) :=
  inferInstanceAs (Decidable (_ ∧ _))

/-- The `n` bytes from `addr` on of a memory are those from `other` on of another one. -/
def Copied (source : ByteMemory) (other : BitVec 64) (memory : ByteMemory) (addr : BitVec 64)
    (n : Nat) : Prop :=
  ∀ k < n, memory (addr + BitVec.ofNat 64 k) = source (other + BitVec.ofNat 64 k)

variable {memory source : ByteMemory} {addr other : BitVec 64} {n m : Nat}

/-- One bit of a value read is one bit of one byte. -/
theorem get_lsb_read (memory : ByteMemory) (addr : BitVec 64) (n i : Nat) :
    (memory.read addr n).getLsbD i =
      (decide (i < 8 * n) && (memory (addr + BitVec.ofNat 64 (i / 8))).getLsbD (i % 8)) := by
  induction n generalizing addr i with
  | zero => simp [read]
  | succ n ih =>
      have happend : (memory.read addr (n + 1)).getLsbD i =
          (memory.read (addr + 1) n ++ memory addr).getLsbD i := rfl
      rw [happend, BitVec.getLsbD_append]
      by_cases hi : i < 8
      · have hdiv : i / 8 = 0 := by omega
        have hmod : i % 8 = i := by omega
        have hlt : i < 8 * (n + 1) := by omega
        simp [hi, hdiv, hmod, hlt]
      · have hdiv : addr + 1 + BitVec.ofNat 64 ((i - 8) / 8) = addr + BitVec.ofNat 64 (i / 8) := by
          apply BitVec.eq_of_toNat_eq
          simp only [BitVec.toNat_add, BitVec.toNat_ofNat, BitVec.ofNat_eq_ofNat]
          omega
        have hmod : (i - 8) % 8 = i % 8 := by omega
        have hlt : i - 8 < 8 * n ↔ i < 8 * (n + 1) := by omega
        simp only [hi, ↓reduceIte, ih, hdiv, hmod, hlt]

/-- A value is copied with its bytes. -/
theorem Copied.read (h : Copied source other memory addr n) :
    memory.read addr n = source.read other n := by
  apply BitVec.eq_of_getLsbD_eq
  intro i hi
  rw [get_lsb_read, get_lsb_read, h (i / 8) (by omega)]

/-- A part of a copied range is copied. -/
theorem Copied.part (h : Copied source other memory addr n) (offset : Nat) {len : Nat}
    (hlen : offset + len ≤ n) :
    Copied source (other + BitVec.ofNat 64 offset) memory (addr + BitVec.ofNat 64 offset) len := by
  intro k hk
  rw [BitVec.add_assoc, BitVec.add_assoc, ← BitVec.ofNat_add]
  exact h (offset + k) (by omega)

/-- Two memories that agree on a range read the same value from it. -/
theorem read_congr {after : ByteMemory}
    (h : ∀ k < n, after (addr + BitVec.ofNat 64 k) = memory (addr + BitVec.ofNat 64 k)) :
    after.read addr n = memory.read addr n :=
  Copied.read h

/-- The offset of a byte of a range is its index. -/
theorem offset_to_nat (addr : BitVec 64) {k : Nat} (hk : k < 2 ^ 64) :
    (addr + BitVec.ofNat 64 k - addr).toNat = k := by
  bv_omega

/-- Reading back what was written. -/
theorem read_write_same (hn : n ≤ 2 ^ 61) (value : BitVec (8 * n)) :
    (memory.write addr n value).read addr n = value := by
  apply BitVec.eq_of_getLsbD_eq
  intro i hi
  have hoffset := offset_to_nat addr (show i / 8 < 2 ^ 64 by omega)
  have hlt : i / 8 < n := by omega
  have hbit : 8 * (i / 8) + i % 8 = i := by omega
  have hlow : i % 8 < 8 := by omega
  rw [get_lsb_read, write, hoffset, if_pos hlt, BitVec.getLsbD_extractLsb', hbit]
  simp [hi, hlow]

/-- A byte outside the range is not changed by a write. -/
theorem write_outside {byte : BitVec 64} (value : BitVec (8 * n)) (h : n ≤ (byte - addr).toNat) :
    memory.write addr n value byte = memory byte := by
  rw [write, if_neg (by omega)]

/-- A byte outside the range is not changed by a fill. -/
theorem fill_outside {byte : BitVec 64} (value : BitVec 8) (h : n ≤ (byte - addr).toNat) :
    memory.fill addr n value byte = memory byte := by
  rw [fill, if_neg (by omega)]

/-- No byte of the second of two disjoint ranges is in the first. -/
theorem Disjoint.offset_le (h : Disjoint addr n other m) {k : Nat} (hk : k < m) :
    n ≤ (other + BitVec.ofNat 64 k - addr).toNat := by
  obtain ⟨hn, hm⟩ := h
  bv_omega

/-- Reading from a range that a write does not touch. -/
theorem read_write_other (value : BitVec (8 * n)) (h : Disjoint addr n other m) :
    (memory.write addr n value).read other m = memory.read other m :=
  read_congr fun _ hk => write_outside value (h.offset_le hk)

/-- Reading from a range that a fill does not touch. -/
theorem read_fill_outside (value : BitVec 8) (h : Disjoint addr n other m) :
    (memory.fill addr n value).read other m = memory.read other m :=
  read_congr fun _ hk => fill_outside value (h.offset_le hk)

/-- Reading from a range filled with zeros. -/
theorem read_fill_zero (h : ∀ k < m, (other + BitVec.ofNat 64 k - addr).toNat < n) :
    (memory.fill addr n 0).read other m = 0 := by
  apply BitVec.eq_of_getLsbD_eq
  intro i hi
  rw [get_lsb_read, fill, if_pos (h (i / 8) (by omega))]
  simp

end ByteMemory
