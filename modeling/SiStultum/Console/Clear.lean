import SiStultum.Console.Conlib
import SiStultum.Library.Raster

/-!
# Clearing the screen

`cls` fills `w * h` pixels from the beginning of the framebuffer on, one after the other, while the
lines of the screen are a pitch apart. `cls_apply` says what `cls` does to every byte, and
`cls_clears_iff` for which geometries that clears the screen.
-/

namespace SiStultum

open ByteMemory Raster

/-- The pixel in column `x` of line `y`, in a framebuffer whose lines are `p` bytes apart. -/
def pixel (dst : SsfnBuf) (p : BitVec 32) (mem : ByteMemory) (x y : Nat) : BitVec 32 :=
  mem.read (dst.ptr + BitVec.ofNat 64 (y * p.toNat + 4 * x)) 4

/-- `cls` gives all visible pixels the background colour and changes nothing behind the lines of the
framebuffer. -/
structure ClearsScreen (dst : SsfnBuf) (p : BitVec 32) (mem : ByteMemory) : Prop where
  cleared : ∀ x < dst.w.toNat, ∀ y < dst.h.toNat, pixel dst p (cls dst mem) x y = dst.bg
  outside : ∀ byte : BitVec 64, dst.h.toNat * p.toNat ≤ (byte - dst.ptr).toNat →
    cls dst mem byte = mem byte

/-- The number of pixels that `cls` fills: an `int` product, as an `unsigned int`. -/
def clsLength (dst : SsfnBuf) : Nat :=
  (dst.w * dst.h).toNat

/-! ## What the loop writes -/

variable {bg : BitVec 32} {mem : ByteMemory}

/-- The loop writes the colour over and over from `ptr` on. -/
theorem cls_loop_apply (bg : BitVec 32) {len : Nat} (hlen : 4 * len < 2 ^ 64) (ptr : BitVec 64)
    (mem : ByteMemory) (byte : BitVec 64) :
    clsLoop bg len ptr mem byte =
      if (byte - ptr).toNat < 4 * len then bg.extractLsb' (8 * ((byte - ptr).toNat % 4)) 8
      else mem byte := by
  induction len generalizing ptr mem with
  | zero => rfl
  | succ len ih =>
      rw [clsLoop, ih (by omega)]
      by_cases hfirst : (byte - ptr).toNat < 4
      · -- a byte of the first pixel: the other rounds do not touch it
        have hrest : ¬ (byte - (ptr + 4)).toNat < 4 * len := by bv_omega
        rw [if_neg hrest, write, if_pos hfirst, if_pos (by omega), Nat.mod_eq_of_lt hfirst]
      · have hoffset : (byte - (ptr + 4)).toNat = (byte - ptr).toNat - 4 := by bv_omega
        have hsame : ((byte - ptr).toNat - 4) % 4 = (byte - ptr).toNat % 4 := by omega
        rw [hoffset, hsame, write_outside (n := 4) bg (by omega)]
        by_cases hinside : (byte - ptr).toNat < 4 * (len + 1)
        · rw [if_pos (by omega), if_pos hinside]
        · rw [if_neg (by omega), if_neg hinside]

variable {dst : SsfnBuf}

/-- The loop has fewer than `2 ^ 32` turns. -/
theorem cls_length_lt (dst : SsfnBuf) : clsLength dst < 2 ^ 32 :=
  (dst.w * dst.h).isLt

/-- The number of the turns is the product of the sizes, as 32 bits hold it. -/
theorem cls_length_eq (dst : SsfnBuf) : clsLength dst = dst.w.toNat * dst.h.toNat % 2 ^ 32 :=
  BitVec.toNat_mul dst.w dst.h

/-- What `cls` leaves in a byte. -/
theorem cls_apply (dst : SsfnBuf) (mem : ByteMemory) (byte : BitVec 64) :
    cls dst mem byte =
      if (byte - dst.ptr).toNat < 4 * clsLength dst then
        dst.bg.extractLsb' (8 * ((byte - dst.ptr).toNat % 4)) 8
      else mem byte := by
  have hlen := cls_length_lt dst
  exact cls_loop_apply dst.bg (by rw [← clsLength]; omega) dst.ptr mem byte

/-- What `cls` leaves in four aligned bytes. -/
theorem read_cls (dst : SsfnBuf) (mem : ByteMemory) {offset : Nat} (haligned : offset % 4 = 0)
    (hfits : offset + 4 ≤ 2 ^ 64) :
    (cls dst mem).read (dst.ptr + BitVec.ofNat 64 offset) 4 =
      if offset < 4 * clsLength dst then dst.bg
      else mem.read (dst.ptr + BitVec.ofNat 64 offset) 4 := by
  have hoffset : ∀ k < 4,
      (dst.ptr + BitVec.ofNat 64 offset + BitVec.ofNat 64 k - dst.ptr).toNat = offset + k := by
    intro k hk
    rw [BitVec.add_assoc, ← BitVec.ofNat_add]
    exact offset_to_nat dst.ptr (by omega)
  split
  · next hinside =>
      have hwritten : (mem.write (dst.ptr + BitVec.ofNat 64 offset) 4 dst.bg).read
          (dst.ptr + BitVec.ofNat 64 offset) 4 = dst.bg :=
        read_write_same (n := 4) (by decide) dst.bg
      refine Eq.trans (read_congr fun k hk => ?_) hwritten
      have hmod : (offset + k) % 4 = k := by omega
      rw [cls_apply, hoffset k hk, if_pos (by omega), hmod, write, offset_to_nat _ (by omega),
        if_pos hk]
  · next houtside =>
      refine read_congr fun k hk => ?_
      rw [cls_apply, hoffset k hk, if_neg (by omega)]

/-! ## Pixels -/

variable {p : BitVec 32} {x y : Nat}

/-- No pixel of the screen is beyond the address space. -/
theorem pixel_offset_lt (hpitch : 4 * dst.w.toNat ≤ p.toNat) (hx : x < dst.w.toNat)
    (hy : y < dst.h.toNat) : y * p.toNat + 4 * x + 4 ≤ dst.h.toNat * p.toNat :=
  offset_le (by omega) hy

/-- The size of a screen in bytes fits in an address. -/
theorem screen_size_lt (dst : SsfnBuf) (p : BitVec 32) : dst.h.toNat * p.toNat < 2 ^ 64 := by
  calc dst.h.toNat * p.toNat < 2 ^ 32 * 2 ^ 32 := Nat.mul_lt_mul'' dst.h.isLt p.isLt
    _ = 2 ^ 64 := rfl

/-- A visible pixel is cleared if it is among the first `clsLength`, and else left as it was. -/
theorem pixel_cls (haligned : p.toNat % 4 = 0) (hpitch : 4 * dst.w.toNat ≤ p.toNat)
    (mem : ByteMemory) (hx : x < dst.w.toNat) (hy : y < dst.h.toNat) :
    pixel dst p (cls dst mem) x y =
      if y * p.toNat + 4 * x < 4 * clsLength dst then dst.bg else pixel dst p mem x y := by
  have hlt := pixel_offset_lt hpitch hx hy
  have hsize := screen_size_lt dst p
  refine read_cls dst mem ?_ (by omega)
  obtain ⟨pitch, hp⟩ : ∃ pitch, p.toNat = 4 * pitch := ⟨p.toNat / 4, by omega⟩
  rw [hp, Nat.mul_left_comm]
  omega

/-- The filled pixels are no more than the screen has. -/
theorem cls_length_le (hpitch : 4 * dst.w.toNat ≤ p.toNat) :
    4 * clsLength dst ≤ dst.h.toNat * p.toNat := by
  calc 4 * clsLength dst ≤ 4 * (dst.w.toNat * dst.h.toNat) := by
        rw [cls_length_eq]
        exact Nat.mul_le_mul_left 4 (Nat.mod_le _ _)
    _ = dst.h.toNat * (4 * dst.w.toNat) := by rw [← Nat.mul_assoc, Nat.mul_comm]
    _ ≤ dst.h.toNat * p.toNat := Nat.mul_le_mul_left _ hpitch

/-- For one prior contents of the memory: the screen is cleared if the pixels that `cls` does not
reach already had the background colour. -/
theorem clears_screen_iff (haligned : p.toNat % 4 = 0) (hpitch : 4 * dst.w.toNat ≤ p.toNat)
    (mem : ByteMemory) :
    ClearsScreen dst p mem ↔
      ∀ x < dst.w.toNat, ∀ y < dst.h.toNat, 4 * clsLength dst ≤ y * p.toNat + 4 * x →
        pixel dst p mem x y = dst.bg := by
  constructor
  · intro h x hx y hy hbeyond
    have hcleared := h.cleared x hx y hy
    rwa [pixel_cls haligned hpitch mem hx hy, if_neg (Nat.not_lt_of_le hbeyond)] at hcleared
  · intro hprior
    constructor
    case cleared =>
      intro x hx y hy
      rw [pixel_cls haligned hpitch mem hx hy]
      split
      · rfl
      · next hbeyond => exact hprior x hx y hy (Nat.le_of_not_lt hbeyond)
    case outside =>
      intro byte hbyte
      have hlength := cls_length_le hpitch
      rw [cls_apply, if_neg (by omega)]

/-- Some prior contents give a pixel another colour. -/
theorem exists_pixel_ne (dst : SsfnBuf) (p : BitVec 32) (x y : Nat) :
    ∃ mem, pixel dst p mem x y ≠ dst.bg := by
  refine ⟨ByteMemory.write (fun _ => 0) (dst.ptr + BitVec.ofNat 64 (y * p.toNat + 4 * x)) 4
    (dst.bg + 1), ?_⟩
  have hread : pixel dst p (ByteMemory.write (fun _ => 0)
      (dst.ptr + BitVec.ofNat 64 (y * p.toNat + 4 * x)) 4 (dst.bg + 1)) x y = dst.bg + 1 :=
    read_write_same (n := 4) (by decide) (dst.bg + 1)
  rw [hread]
  bv_omega

/-- `cls` reaches every visible pixel exactly if there is none, or if their number is that of the
pixels it fills and no line but the last has bytes behind its pixels. -/
theorem reaches_all_iff (haligned : p.toNat % 4 = 0) (hpitch : 4 * dst.w.toNat ≤ p.toNat) :
    (∀ x < dst.w.toNat, ∀ y < dst.h.toNat, y * p.toNat + 4 * x < 4 * clsLength dst) ↔
      dst.w.toNat = 0 ∨ dst.h.toNat = 0 ∨
        dst.w.toNat * dst.h.toNat < 2 ^ 32 ∧ (dst.h.toNat = 1 ∨ p.toNat = 4 * dst.w.toNat) := by
  obtain ⟨pitch, hp⟩ : ∃ pitch, p.toNat = 4 * pitch := ⟨p.toNat / 4, by omega⟩
  have hpixels : ∀ x y, y * p.toNat + 4 * x < 4 * clsLength dst ↔
      y * pitch + x < clsLength dst := by
    intro x y
    rw [hp, Nat.mul_left_comm]
    omega
  simp only [hpixels]
  by_cases hw : dst.w.toNat = 0
  · exact iff_of_true (fun x hx => absurd hx (by omega)) (.inl hw)
  by_cases hh : dst.h.toNat = 0
  · exact iff_of_true (fun _ _ y hy => absurd hy (by omega)) (.inr (.inl hh))
  have hlength := cls_length_eq dst
  have hlt := cls_length_lt dst
  rw [offsets_below_iff (by omega) (by omega) (by omega)
    (by rw [hlength]; exact Nat.mod_le _ _)]
  constructor
  · intro ⟨hfull, hdense⟩
    exact .inr (.inr ⟨by omega, hdense.imp id fun hsame => by omega⟩)
  · intro hcondition
    obtain ⟨harea, hdense⟩ := (hcondition.resolve_left hw).resolve_left hh
    rw [Nat.mod_eq_of_lt harea] at hlength
    exact ⟨hlength, hdense.imp id fun hsame => by omega⟩

/-- With a given prior contents of the memory, `cls` clears the screen exactly if the visible pixels
behind the first `w * h` already had the background colour. It does so with every prior contents
exactly if no pixel is visible, or `w * h` is an `unsigned int` and the lines follow each other
without a gap. -/
theorem cls_clears_iff {dst : SsfnBuf} {p : BitVec 32} (haligned : p.toNat % 4 = 0)
    (hpitch : 4 * dst.w.toNat ≤ p.toNat) :
    (∀ mem, ClearsScreen dst p mem ↔
      ∀ x < dst.w.toNat, ∀ y < dst.h.toNat,
        4 * (dst.w.toNat * dst.h.toNat % 2 ^ 32) ≤ y * p.toNat + 4 * x →
          pixel dst p mem x y = dst.bg) ∧
    ((∀ mem, ClearsScreen dst p mem) ↔
      dst.w.toNat = 0 ∨ dst.h.toNat = 0 ∨
        dst.w.toNat * dst.h.toNat < 2 ^ 32 ∧
          (dst.h.toNat = 1 ∨ p.toNat = 4 * dst.w.toNat)) := by
  rw [← cls_length_eq, ← reaches_all_iff haligned hpitch]
  refine ⟨clears_screen_iff haligned hpitch, ?_⟩
  constructor
  · intro hall x hx y hy
    refine Nat.lt_of_not_le fun hbeyond => ?_
    obtain ⟨mem, hcolour⟩ := exists_pixel_ne dst p x y
    exact hcolour ((clears_screen_iff haligned hpitch mem).mp (hall mem) x hx y hy hbeyond)
  · intro hreached mem
    refine (clears_screen_iff haligned hpitch mem).mpr fun x hx y hy hbeyond => ?_
    exact absurd (hreached x hx y hy) (Nat.not_lt_of_le hbeyond)

/-- Lines of 1024 pixels without gaps are all cleared. -/
theorem dense_screen_cleared :
    ClearsScreen (setBg 0x00ff6403 (conlibInit 0x80000000 1024 768 4096)) 4096 fun _ => 0xff :=
  (cls_clears_iff (by decide) (by decide)).2.mpr (.inr (.inr ⟨by decide, .inr (by decide)⟩)) _

/-- With 1366 pixels in lines of 1376, the end of the last line keeps its colour. -/
theorem padded_screen_not_cleared :
    5504 % 4 = 0 ∧ 4 * 1366 ≤ 5504 ∧
      ¬ ClearsScreen (conlibInit 0x80000000 1366 768 5504) 5504 fun _ => 0xff := by
  refine ⟨by decide, by decide, fun h => ?_⟩
  have hlast := h.cleared 1365 (by decide) 767 (by decide)
  rw [pixel_cls (by decide) (by decide) _ (by decide) (by decide), if_neg (by decide)] at hlast
  exact absurd hlast (by decide)

end SiStultum
