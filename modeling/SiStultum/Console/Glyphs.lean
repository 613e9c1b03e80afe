import Mathlib.Data.Nat.Bitwise
import Mathlib.Tactic.Ring
import SiStultum.Console.Conlib
import SiStultum.Library.Framebuffer

/-!
# The pixels of a character

The second half of `ssfn_putc`, from `ssfn.c`: the fragments of a glyph are drawn line by line, by
a pointer that walks over the framebuffer and a mask that walks over the bits of the font.
`glyphPicture` says which colour each pixel of a glyph should have, and `draw_glyph_eq_paint` that
the loops paint the visible part of that picture and nothing else.
-/

namespace SiStultum

open ByteMemory Framebuffer

/-! ## `ssfn_putc` -/

namespace SsfnBuf

variable (dst : SsfnBuf)

/-- `w`: a negative width only stands for another order of the colours. -/
def lineWidth : Int :=
  if dst.w.toInt < 0 then -dst.w.toInt else dst.w.toInt

/-- `s`, the pixels from one line to the next. -/
def lineStep : Nat :=
  dst.p.toNat / 4

/-- The first value of `o`, the address of the pixel at the cursor. -/
def origin : BitVec 64 :=
  dst.ptr + (dst.y * dst.p.setWidth 32).signExtend 64 + dst.x.signExtend 64 * 4

/-- `!w || ssfn_dst.x + j < w` -/
def InsideWidth (j : Nat) : Prop :=
  dst.lineWidth = 0 ∨ dst.x.toInt + j < dst.lineWidth

instance (j : Nat) : Decidable (dst.InsideWidth j) :=
  inferInstanceAs (Decidable (_ ∨ _))

/-- `!ssfn_dst.h || ssfn_dst.y + y < ssfn_dst.h` -/
def InsideHeight (y : Nat) : Prop :=
  dst.h.toInt = 0 ∨ dst.y.toInt + y < dst.h.toInt

instance (y : Nat) : Decidable (dst.InsideHeight y) :=
  inferInstanceAs (Decidable (_ ∨ _))

end SsfnBuf

/-- The memory, and the variables `o` and `y` of `ssfn_putc`. -/
structure Pen where
  mem : ByteMemory
  o : BitVec 64
  y : Nat

/-- The variables `frg` and `m`: the bit of the font that decides about the next pixel. -/
structure BitMask where
  frg : Nat
  m : Nat

/-- `if (m > 0x80) { frg++; m = 1; }` -/
def BitMask.settle (mask : BitMask) : BitMask :=
  if mask.m > 0x80 then ⟨mask.frg + 1, 1⟩ else mask

/-- `for (p = o, j = 0; j < rounds && ...; j++, p++) *p = ssfn_dst.bg` -/
def fillLine (dst : SsfnBuf) : (rounds j : Nat) → BitVec 64 → ByteMemory → ByteMemory
  | 0, _, _, mem => mem
  | rounds + 1, j, p, mem =>
      if dst.InsideWidth j then fillLine dst rounds (j + 1) (p + 4) (mem.write p 4 dst.bg) else mem

/-- `for (; y < bottom && ...; y++, o += s)` over the background, in `bottom - y` rounds. -/
def fillLines (dst : SsfnBuf) (width : Nat) : (rounds : Nat) → Pen → Pen
  | 0, pen => pen
  | rounds + 1, pen =>
      if dst.InsideHeight pen.y then
        fillLines dst width rounds
          { mem := fillLine dst width 0 pen.o pen.mem
            o := pen.o + BitVec.ofNat 64 (4 * dst.lineStep)
            y := pen.y + 1 }
      else pen

/-- `for (p = o, l = 0; l < k; l++, p++, m <<= 1)`, with `rounds` rounds left. -/
def drawLine (font : SsfnFont) (dst : SsfnBuf) :
    (rounds l : Nat) → BitVec 64 → BitMask → ByteMemory → BitMask × ByteMemory
  | 0, _, _, mask, mem => (mask, mem)
  | rounds + 1, l, p, mask, mem =>
      let mask := mask.settle
      let mem :=
        if 0 ≤ dst.x.toInt + l ∧ dst.InsideWidth l then
          if (font.byte mask.frg).toNat &&& mask.m ≠ 0 then mem.write p 4 dst.fg
          else if dst.bg ≠ 0 then mem.write p 4 dst.bg
          else mem
        else mem
      drawLine font dst rounds (l + 1) (p + 4) ⟨mask.frg, mask.m <<< 1⟩ mem

/-- `for (m = 1; j && ...; j--, y++, o += s)`, the lines of a fragment. -/
def drawLines (font : SsfnFont) (dst : SsfnBuf) (k : Nat) : (j : Nat) → BitMask → Pen → Pen
  | 0, _, pen => pen
  | j + 1, mask, pen =>
      if dst.InsideHeight pen.y then
        let (mask, mem) := drawLine font dst k 0 pen.o mask pen.mem
        drawLines font dst k j mask
          { mem := mem, o := pen.o + BitVec.ofNat 64 (4 * dst.lineStep), y := pen.y + 1 }
      else pen

namespace SsfnFont

variable (font : SsfnFont)

/-- The glyph at `entry` has descriptors of six bytes. -/
def wide (entry : Nat) : Bool :=
  font.byte entry &&& 0x40 != 0

/-- Where the fragment of a descriptor is. -/
def fragment (entry ptr : Nat) : Nat :=
  if font.wide entry then
    (font.byte (ptr + 5) ++ font.byte (ptr + 4) ++ font.byte (ptr + 3) ++ font.byte (ptr + 2)).toNat
  else (font.byte (ptr + 4) ++ font.byte (ptr + 3) ++ font.byte (ptr + 2)).toNat

/-- The descriptor is for a bitmap. The others are skipped. -/
def isBitmap (entry ptr : Nat) : Bool :=
  !(font.byte ptr == 255 && font.byte (ptr + 1) == 255) &&
    font.byte (font.fragment entry ptr) &&& 0xE0 == 0x80

/-- `k`, the pixels in a line of a bitmap. -/
def fragmentWidth (frg : Nat) : Nat :=
  ((font.byte frg &&& 0x1F).toNat + 1) <<< 3

/-- `j`, the lines of a bitmap. -/
def fragmentHeight (frg : Nat) : Nat :=
  (font.byte (frg + 1)).toNat + 1

/-- The number of descriptors. -/
def fragments (entry : Nat) : Nat :=
  (font.byte (entry + 1)).toNat

/-- The bytes of a descriptor. -/
def stride (entry : Nat) : Nat :=
  if font.wide entry then 6 else 5

/-- `chr[2]`, the width of the background. -/
def glyphWidth (entry : Nat) : Nat :=
  (font.byte (entry + 2)).toNat

/-- `chr[3]`, the height of the background. -/
def glyphHeight (entry : Nat) : Nat :=
  (font.byte (entry + 3)).toNat

/-- `ptr[1]`, the line in which a fragment begins. -/
def fragmentTop (ptr : Nat) : Nat :=
  (font.byte (ptr + 1)).toNat

end SsfnFont

/-- The background up to line `bottom`. -/
def fillTo (dst : SsfnBuf) (width bottom : Nat) (pen : Pen) : Pen :=
  fillLines dst width (bottom - pen.y) pen

/-- The body of the loop over the descriptors, for a bitmap: go to its line, and draw it. -/
def drawFragment (font : SsfnFont) (dst : SsfnBuf) (entry ptr : Nat) (pen : Pen) : Pen :=
  let pen :=
    if dst.bg ≠ 0 then fillTo dst (font.glyphWidth entry) (font.fragmentTop ptr) pen
    else
      { pen with
        o := pen.o + BitVec.ofInt 64 (4 * (((font.fragmentTop ptr : Int) - pen.y) * dst.lineStep))
        y := font.fragmentTop ptr }
  let frg := font.fragment entry ptr
  drawLines font dst (font.fragmentWidth frg) (font.fragmentHeight frg) ⟨frg + 2, 1⟩ pen

/-- `for (i = 0; i < chr[1]; i++, ptr += ...)`, with `rounds` rounds left. -/
def drawFragments (font : SsfnFont) (dst : SsfnBuf) (entry : Nat) :
    (rounds ptr : Nat) → Pen → Pen
  | 0, _, pen => pen
  | rounds + 1, ptr, pen =>
      drawFragments font dst entry rounds (ptr + font.stride entry)
        (if font.isBitmap entry ptr then drawFragment font dst entry ptr pen else pen)

/-- All that `ssfn_putc` does to the framebuffer. -/
def drawGlyph (font : SsfnFont) (dst : SsfnBuf) (entry : Nat) (mem : ByteMemory) : ByteMemory :=
  let pen := drawFragments font dst entry (font.fragments entry) (entry + 6) ⟨mem, dst.origin, 0⟩
  if dst.bg ≠ 0 then (fillTo dst (font.glyphWidth entry) (font.glyphHeight entry) pen).mem
  else pen.mem

/-! ## What a glyph looks like -/

/-- The colours of `ssfn_dst`. -/
structure Ink where
  fg : BitVec 32
  bg : BitVec 32

def SsfnBuf.ink (dst : SsfnBuf) : Ink :=
  ⟨dst.fg, dst.bg⟩

/-- The background of the ink is that of the renderer. -/
theorem ink_bg (dst : SsfnBuf) : dst.ink.bg = dst.bg :=
  rfl

/-- The background between two lines. -/
def fillPicture (bg : BitVec 32) (width top bottom : Nat) : Picture :=
  fun column line => if top ≤ line ∧ line < bottom ∧ column < width then some bg else none

/-- The bit of a bitmap with a given number. -/
def SsfnFont.fragmentBit (font : SsfnFont) (frg n : Nat) : Bool :=
  (font.byte (frg + 2 + n / 8)).getLsbD (n % 8)

/-- A set bit has the foreground colour, and a clear one the background colour, if there is one. -/
def Ink.bit (ink : Ink) (bit : Bool) : Option (BitVec 32) :=
  if bit then some ink.fg else if ink.bg ≠ 0 then some ink.bg else none

/-- The first `height` lines of a bitmap, from line `top` on. -/
def bitmapPicture (font : SsfnFont) (ink : Ink) (frg top height : Nat) : Picture :=
  fun column line =>
    if top ≤ line ∧ line < top + height ∧ column < font.fragmentWidth frg then
      ink.bit (font.fragmentBit frg ((line - top) * font.fragmentWidth frg + column))
    else none

/-- A part of a glyph, and the line behind it. -/
structure Sketch where
  picture : Picture
  y : Nat

/-- With the background up to line `bottom`. -/
def Sketch.fill (sketch : Sketch) (bg : BitVec 32) (width bottom : Nat) : Sketch where
  picture := (fillPicture bg width sketch.y bottom).over sketch.picture
  y := max sketch.y bottom

/-- With the bitmap of one more descriptor. -/
def Sketch.bitmap (font : SsfnFont) (ink : Ink) (entry ptr : Nat) (sketch : Sketch) : Sketch :=
  let sketch :=
    if ink.bg ≠ 0 then sketch.fill ink.bg (font.glyphWidth entry) (font.fragmentTop ptr)
    else { sketch with y := font.fragmentTop ptr }
  let frg := font.fragment entry ptr
  { picture :=
      (bitmapPicture font ink frg sketch.y (font.fragmentHeight frg)).over sketch.picture
    y := sketch.y + font.fragmentHeight frg }

/-- With the bitmaps of the next descriptors. -/
def Sketch.bitmaps (font : SsfnFont) (ink : Ink) (entry : Nat) :
    (rounds ptr : Nat) → Sketch → Sketch
  | 0, _, sketch => sketch
  | rounds + 1, ptr, sketch =>
      Sketch.bitmaps font ink entry rounds (ptr + font.stride entry)
        (if font.isBitmap entry ptr then sketch.bitmap font ink entry ptr else sketch)

/-- The picture of a glyph, with the cursor in its left upper corner. -/
def glyphPicture (font : SsfnFont) (ink : Ink) (entry : Nat) : Picture :=
  let sketch := Sketch.bitmaps font ink entry (font.fragments entry) (entry + 6)
    ⟨Picture.blank, 0⟩
  if ink.bg ≠ 0 then
    (sketch.fill ink.bg (font.glyphWidth entry) (font.glyphHeight entry)).picture
  else sketch.picture

/-! ## The framebuffer of `ssfn_dst` -/

/-- The pixels lie in lines that are one after the other, in less memory than an `int` counts. -/
structure SsfnBuf.Fits (dst : SsfnBuf) : Prop where
  width : 0 < dst.w.toInt
  height : 0 < dst.h.toInt
  aligned : dst.p.toNat % 4 = 0
  pitch : 4 * dst.w.toNat ≤ dst.p.toNat
  size : dst.h.toNat * dst.p.toNat ≤ 2 ^ 31

/-- The cursor is not left of the screen or above it. -/
structure SsfnBuf.OnScreen (dst : SsfnBuf) : Prop where
  x : 0 ≤ dst.x.toInt
  y : 0 ≤ dst.y.toInt

/-- Where the pixels of `ssfn_dst` are. -/
def SsfnBuf.geometry (dst : SsfnBuf) (h : dst.Fits) : Geometry where
  base := dst.ptr
  width := dst.w.toNat
  height := dst.h.toNat
  pitch := dst.p.toNat
  aligned := h.aligned
  fits := h.pitch
  bounded := Nat.le_trans h.size (by decide)

variable {font : SsfnFont} {dst : SsfnBuf}

/-- An `int` that is not negative. -/
theorem to_int_of_nonneg {value : BitVec 32} (h : 0 ≤ value.toInt) :
    value.toInt = value.toNat ∧ value.toNat < 2 ^ 31 := by
  have hlt := value.isLt
  rw [BitVec.toInt_eq_toNat_cond] at h ⊢
  split at h <;> omega

/-- The test of the renderer for the right edge, on a cursor that is on the screen. -/
theorem inside_width_iff (hfits : dst.Fits) (hscreen : dst.OnScreen) (j : Nat) :
    dst.InsideWidth j ↔ dst.x.toNat + j < dst.w.toNat := by
  have hw := to_int_of_nonneg (Int.le_of_lt hfits.width)
  have hx := to_int_of_nonneg hscreen.x
  have hwidth := hfits.width
  rw [SsfnBuf.InsideWidth, SsfnBuf.lineWidth, if_neg (by omega)]
  omega

/-- Its test for the lower edge. -/
theorem inside_height_iff (hfits : dst.Fits) (hscreen : dst.OnScreen) (y : Nat) :
    dst.InsideHeight y ↔ dst.y.toNat + y < dst.h.toNat := by
  have hh := to_int_of_nonneg (Int.le_of_lt hfits.height)
  have hy := to_int_of_nonneg hscreen.y
  have hheight := hfits.height
  rw [SsfnBuf.InsideHeight]
  omega

/-- The line step counts the pitch in pixels. -/
theorem line_step_eq (hfits : dst.Fits) : 4 * dst.lineStep = dst.p.toNat := by
  have haligned := hfits.aligned
  rw [SsfnBuf.lineStep]
  omega

/-- The address of `o` after some lines, and of `p` after some columns. -/
theorem origin_add (hfits : dst.Fits) (hscreen : dst.OnScreen) {line : Nat}
    (hline : dst.InsideHeight line) (column : Nat) :
    dst.origin + BitVec.ofNat 64 (4 * dst.lineStep * line) + BitVec.ofNat 64 (4 * column) =
      (dst.geometry hfits).addr (dst.x.toNat + column) (dst.y.toNat + line) := by
  rw [inside_height_iff hfits hscreen] at hline
  have hxlt := (to_int_of_nonneg hscreen.x).2
  have hp := dst.p.isLt
  have hsize := hfits.size
  have hpitch := hfits.pitch
  have hpos : 0 < dst.p.toNat := by
    have hw := to_int_of_nonneg (Int.le_of_lt hfits.width)
    have hwidth := hfits.width
    omega
  -- a visible line begins at a distance that is an `int`
  have hlines : dst.y.toNat * dst.p.toNat < 2 ^ 31 := by
    calc dst.y.toNat * dst.p.toNat < dst.h.toNat * dst.p.toNat :=
          Nat.mul_lt_mul_of_pos_right (by omega) hpos
      _ ≤ 2 ^ 31 := hsize
  have hrow : (dst.y * dst.p.setWidth 32).signExtend 64 =
      BitVec.ofNat 64 (dst.y.toNat * dst.p.toNat) := by
    have hproduct : (dst.y * dst.p.setWidth 32).toNat = dst.y.toNat * dst.p.toNat := by
      rw [BitVec.toNat_mul, BitVec.toNat_setWidth, Nat.mod_eq_of_lt (a := dst.p.toNat) (by omega),
        Nat.mod_eq_of_lt (by omega)]
    have hmsb : (dst.y * dst.p.setWidth 32).msb = false := by
      rw [BitVec.msb_eq_false_iff_two_mul_lt]
      omega
    rw [BitVec.signExtend_eq_setWidth_of_msb_false hmsb]
    apply BitVec.eq_of_toNat_eq
    rw [BitVec.toNat_setWidth, BitVec.toNat_ofNat, hproduct]
  have hcolumn : dst.x.signExtend 64 * 4 = BitVec.ofNat 64 (4 * dst.x.toNat) := by
    have hmsb : dst.x.msb = false := by
      rw [BitVec.msb_eq_false_iff_two_mul_lt]
      omega
    rw [BitVec.signExtend_eq_setWidth_of_msb_false hmsb]
    apply BitVec.eq_of_toNat_eq
    rw [BitVec.toNat_mul, BitVec.toNat_setWidth, BitVec.toNat_ofNat]
    show dst.x.toNat % 2 ^ 64 * 4 % 2 ^ 64 = _
    omega
  show dst.origin + _ + _ = dst.ptr +
    BitVec.ofNat 64 ((dst.y.toNat + line) * dst.p.toNat + 4 * (dst.x.toNat + column))
  rw [SsfnBuf.origin, hrow, hcolumn, line_step_eq hfits, BitVec.add_assoc, BitVec.add_assoc,
    BitVec.add_assoc, ← BitVec.ofNat_add, ← BitVec.ofNat_add, ← BitVec.ofNat_add]
  congr 2
  rw [Nat.add_mul, Nat.mul_comm dst.p.toNat line]
  omega

/-- One more pixel at the cursor. -/
theorem write_dot (hfits : dst.Fits) (hscreen : dst.OnScreen) {line column : Nat}
    (hline : dst.InsideHeight line) (hcolumn : dst.InsideWidth column) (colour : BitVec 32)
    (mem : ByteMemory) :
    mem.write (dst.origin + BitVec.ofNat 64 (4 * dst.lineStep * line) +
        BitVec.ofNat 64 (4 * column)) 4 colour =
      (dst.geometry hfits).paint
        ((Picture.dot column line colour).shift dst.x.toNat dst.y.toNat) mem := by
  rw [origin_add hfits hscreen hline]
  rw [inside_width_iff hfits hscreen] at hcolumn
  rw [inside_height_iff hfits hscreen] at hline
  rw [write_eq_paint (g := dst.geometry hfits) hcolumn hline, shift_dot]

/-! ## One line -/

/-- What is drawn to the right of the screen is not visible. -/
theorem paint_right (hfits : dst.Fits) (hscreen : dst.OnScreen) {column : Nat}
    (hcolumn : ¬ dst.InsideWidth column) (line last : Nat)
    (colours : Nat → Option (BitVec 32)) (mem : ByteMemory) :
    (dst.geometry hfits).paint
      ((Picture.span line column last colours).shift dst.x.toNat dst.y.toNat) mem = mem := by
  rw [inside_width_iff hfits hscreen] at hcolumn
  refine Eq.trans (paint_congr (fun x hx y hy => ?_) mem) (paint_blank mem)
  have hx' : x < dst.w.toNat := hx
  unfold Picture.shift Picture.span Picture.blank
  grind

/-- The background of one line. -/
theorem fill_line_eq (hfits : dst.Fits) (hscreen : dst.OnScreen) {line : Nat}
    (hline : dst.InsideHeight line) (rounds j : Nat) (mem : ByteMemory) :
    fillLine dst rounds j
        (dst.origin + BitVec.ofNat 64 (4 * dst.lineStep * line) + BitVec.ofNat 64 (4 * j)) mem =
      (dst.geometry hfits).paint
        ((Picture.span line j (j + rounds) fun _ => some dst.bg).shift dst.x.toNat dst.y.toNat)
        mem := by
  induction rounds generalizing j mem with
  | zero => rw [Nat.add_zero, span_empty, shift_blank, paint_blank, fillLine]
  | succ rounds ih =>
      rw [fillLine]
      split
      · next hcolumn =>
          have hnext : dst.origin + BitVec.ofNat 64 (4 * dst.lineStep * line) +
              BitVec.ofNat 64 (4 * j) + 4 =
              dst.origin + BitVec.ofNat 64 (4 * dst.lineStep * line) +
                BitVec.ofNat 64 (4 * (j + 1)) := by
            rw [BitVec.add_assoc _ _ 4, Nat.mul_succ, BitVec.ofNat_add]
            rfl
          rw [hnext, ih, write_dot hfits hscreen hline hcolumn,
            ← span_dot line j (fun _ => some dst.bg) rfl, paint_paint, ← shift_over,
            span_over_span line (Nat.le_succ j) (Nat.le_add_right (j + 1) rounds),
            Nat.add_assoc, Nat.add_comm 1 rounds]
      · next hcolumn => exact (paint_right hfits hscreen hcolumn line _ _ mem).symm

/-- The mask for a given bit of a bitmap. -/
def BitMask.at (base n : Nat) : BitMask where
  frg := base + n / 8
  m := 2 ^ (n % 8)

/-- The next turn of the loop looks at the next bit. -/
theorem settle_shift (base n : Nat) :
    BitMask.settle ⟨(BitMask.at base n).frg, (BitMask.at base n).m <<< 1⟩ =
      BitMask.at base (n + 1) := by
  have hdouble : 2 ^ (n % 8) <<< 1 = 2 ^ (n % 8 + 1) := by
    rw [Nat.shiftLeft_eq]
    rfl
  have hmask : BitMask.at base n = ⟨base + n / 8, 2 ^ (n % 8)⟩ := rfl
  have hnext : BitMask.at base (n + 1) = ⟨base + (n + 1) / 8, 2 ^ ((n + 1) % 8)⟩ := rfl
  rw [hmask, hnext, hdouble]
  by_cases hlast : n % 8 = 7
  · -- the last bit of a byte
    have hdiv : (n + 1) / 8 = n / 8 + 1 := by omega
    have hmod : (n + 1) % 8 = 0 := by omega
    have hbig : 2 ^ (7 + 1) > 0x80 := by decide
    rw [hlast, hdiv, hmod, BitMask.settle]
    exact if_pos hbig
  · have hdiv : (n + 1) / 8 = n / 8 := by omega
    have hmod : (n + 1) % 8 = n % 8 + 1 := by omega
    have hsmall : 2 ^ (n % 8 + 1) ≤ 2 ^ 7 := Nat.pow_le_pow_right (by decide) (by omega)
    rw [hdiv, hmod, BitMask.settle, if_neg]
    exact Nat.not_lt_of_le hsmall

/-- The mask selects a bit of the byte. -/
theorem mask_test (byte : BitVec 8) (i : Nat) :
    byte.toNat &&& 2 ^ i ≠ 0 ↔ byte.getLsbD i = true := by
  have htest : byte.getLsbD i = byte.toNat.testBit i := rfl
  rw [htest, Nat.and_two_pow]
  cases byte.toNat.testBit i <;> simp

/-- What one turn of the loop over the columns does to the framebuffer. -/
theorem plot_eq (hfits : dst.Fits) (hscreen : dst.OnScreen) {line : Nat}
    (hline : dst.InsideHeight line) (frg start l : Nat) (mem : ByteMemory) :
    (if 0 ≤ dst.x.toInt + l ∧ dst.InsideWidth l then
      if (font.byte (BitMask.at (frg + 2) (start + l)).frg).toNat &&&
          (BitMask.at (frg + 2) (start + l)).m ≠ 0 then
        mem.write (dst.origin + BitVec.ofNat 64 (4 * dst.lineStep * line) +
          BitVec.ofNat 64 (4 * l)) 4 dst.fg
      else if dst.bg ≠ 0 then
        mem.write (dst.origin + BitVec.ofNat 64 (4 * dst.lineStep * line) +
          BitVec.ofNat 64 (4 * l)) 4 dst.bg
      else mem
    else mem) =
      (dst.geometry hfits).paint
        ((Picture.span line l (l + 1) fun c =>
          dst.ink.bit (font.fragmentBit frg (start + c))).shift dst.x.toNat dst.y.toNat)
        mem := by
  have hx := hscreen.x
  by_cases hcolumn : dst.InsideWidth l
  · rw [if_pos ⟨by omega, hcolumn⟩]
    have hbit : (font.byte (BitMask.at (frg + 2) (start + l)).frg).toNat &&&
        (BitMask.at (frg + 2) (start + l)).m ≠ 0 ↔
        font.fragmentBit frg (start + l) = true :=
      mask_test _ _
    have hnone : ∀ colours : Nat → Option (BitVec 32), colours l = none →
        Picture.span line l (l + 1) colours = Picture.blank := by
      intro colours hl
      funext x y
      unfold Picture.span Picture.blank
      grind
    cases hset : font.fragmentBit frg (start + l) with
    | true =>
        have hcolour : dst.ink.bit (font.fragmentBit frg (start + l)) = some dst.fg := by
          rw [hset]
          rfl
        rw [if_pos (hbit.mpr hset), write_dot hfits hscreen hline hcolumn,
          span_dot line l (fun c => dst.ink.bit (font.fragmentBit frg (start + c)))
            hcolour]
    | false =>
        have hcolour : dst.ink.bit (font.fragmentBit frg (start + l)) =
            if dst.bg ≠ 0 then some dst.bg else none := by
          rw [hset]
          rfl
        rw [if_neg (by rw [hbit, hset]; exact Bool.false_ne_true)]
        by_cases hbg : dst.bg ≠ 0
        · rw [if_pos hbg] at hcolour ⊢
          rw [write_dot hfits hscreen hline hcolumn,
            span_dot line l (fun c => dst.ink.bit (font.fragmentBit frg (start + c)))
              hcolour]
        · rw [if_neg hbg] at hcolour ⊢
          rw [hnone _ hcolour, shift_blank, paint_blank]
  · rw [if_neg fun h => hcolumn h.2]
    exact (paint_right hfits hscreen hcolumn line _ _ mem).symm

/-- One line of a bitmap, from bit `start` of it on. -/
theorem draw_line_eq (font : SsfnFont) (hfits : dst.Fits) (hscreen : dst.OnScreen) {line : Nat}
    (hline : dst.InsideHeight line) (frg start : Nat) (rounds l : Nat) {mask : BitMask}
    (hmask : mask.settle = BitMask.at (frg + 2) (start + l)) (mem : ByteMemory) :
    (drawLine font dst rounds l
        (dst.origin + BitVec.ofNat 64 (4 * dst.lineStep * line) + BitVec.ofNat 64 (4 * l))
        mask mem).1.settle = BitMask.at (frg + 2) (start + (l + rounds)) ∧
      (drawLine font dst rounds l
        (dst.origin + BitVec.ofNat 64 (4 * dst.lineStep * line) + BitVec.ofNat 64 (4 * l))
        mask mem).2 =
      (dst.geometry hfits).paint
        ((Picture.span line l (l + rounds) fun c =>
          dst.ink.bit (font.fragmentBit frg (start + c))).shift dst.x.toNat dst.y.toNat)
        mem := by
  induction rounds generalizing l mask mem with
  | zero =>
      refine ⟨hmask, ?_⟩
      show mem = _
      rw [Nat.add_zero, span_empty, shift_blank, paint_blank]
  | succ rounds ih =>
      have hnext : dst.origin + BitVec.ofNat 64 (4 * dst.lineStep * line) +
          BitVec.ofNat 64 (4 * l) + 4 =
          dst.origin + BitVec.ofNat 64 (4 * dst.lineStep * line) +
            BitVec.ofNat 64 (4 * (l + 1)) := by
        rw [BitVec.add_assoc _ _ 4, Nat.mul_succ, BitVec.ofNat_add]
        rfl
      have hshifted := settle_shift (frg + 2) (start + l)
      rw [drawLine, hmask, plot_eq hfits hscreen hline, hnext]
      obtain ⟨hend, hmem⟩ := ih (l + 1) hshifted _
      rw [Nat.add_right_comm l 1 rounds] at hend hmem
      refine ⟨hend, hmem.trans ?_⟩
      rw [paint_paint, ← shift_over,
        span_over_span line (Nat.le_succ l) (by omega : l + 1 ≤ l + rounds + 1)]
      rfl

/-! ## A whole glyph -/

/-- The pen has drawn a sketch at the cursor. The two line counters differ only when both have
passed the lower end of the screen. -/
structure Traces (hfits : dst.Fits) (before : ByteMemory) (pen : Pen) (sketch : Sketch) : Prop where
  o : pen.o = dst.origin + BitVec.ofNat 64 (4 * dst.lineStep * pen.y)
  mem : pen.mem =
    (dst.geometry hfits).paint (sketch.picture.shift dst.x.toNat dst.y.toNat) before
  y : pen.y = sketch.y ∨ ¬ dst.InsideHeight pen.y ∧ ¬ dst.InsideHeight sketch.y

variable {hfits : dst.Fits} {before : ByteMemory} {pen : Pen} {sketch other : Sketch}

/-- A pen that draws is in the line of the sketch. -/
theorem Traces.line (h : Traces hfits before pen sketch) (hline : dst.InsideHeight pen.y) :
    pen.y = sketch.y :=
  h.y.resolve_right fun hboth => hboth.1 hline

/-- A pen below the screen traces whatever is added to the sketch. -/
theorem Traces.below (h : Traces hfits before pen sketch) (hscreen : dst.OnScreen)
    (hline : ¬ dst.InsideHeight pen.y) (hy : sketch.y ≤ other.y)
    (hsame : ∀ column line, line < sketch.y →
      other.picture column line = sketch.picture column line) :
    Traces hfits before pen other := by
  have hbelow : ¬ dst.InsideHeight sketch.y := by
    rcases h.y with heq | hboth
    · rwa [← heq]
    · exact hboth.2
  rw [inside_height_iff hfits hscreen] at hbelow
  refine ⟨h.o, ?_, Or.inr ⟨hline, ?_⟩⟩
  · rw [h.mem]
    refine paint_congr (fun x _ y hy => ?_) before
    have hvisible : y < dst.h.toNat := hy
    unfold Picture.shift
    split
    · exact (hsame _ _ (by omega)).symm
    · rfl
  · rw [inside_height_iff hfits hscreen]
    omega

/-- A pen that has painted one more line, and gone to the next one. -/
theorem Traces.next_line (h : Traces hfits before pen sketch) (hline : dst.InsideHeight pen.y)
    {last : Nat} {colours : Nat → Option (BitVec 32)} {mem : ByteMemory}
    (hmem : mem = (dst.geometry hfits).paint
      ((Picture.span pen.y 0 last colours).shift dst.x.toNat dst.y.toNat) pen.mem) :
    Traces hfits before
      { mem := mem, o := pen.o + BitVec.ofNat 64 (4 * dst.lineStep), y := pen.y + 1 }
      { picture := (Picture.span sketch.y 0 last colours).over sketch.picture
        y := sketch.y + 1 } := by
  refine ⟨?_, ?_, Or.inl (congrArg (· + 1) (h.line hline))⟩
  · show pen.o + _ = _
    rw [h.o, BitVec.add_assoc, ← BitVec.ofNat_add, ← Nat.mul_succ]
  · show mem = _
    rw [hmem, h.mem, paint_paint, ← shift_over, h.line hline]

/-- The background above a line is filled line by line. -/
theorem fill_next (sketch : Sketch) (bg : BitVec 32) (width : Nat) {bottom : Nat}
    (hbottom : sketch.y < bottom) :
    Sketch.fill
        { picture := (Picture.span sketch.y 0 width fun _ => some bg).over sketch.picture
          y := sketch.y + 1 } bg width bottom =
      sketch.fill bg width bottom := by
  have hmax : max (sketch.y + 1) bottom = max sketch.y bottom := by omega
  have hpicture : (fillPicture bg width (sketch.y + 1) bottom).over
      (Picture.span sketch.y 0 width fun _ => some bg) =
      fillPicture bg width sketch.y bottom := by
    funext column line
    unfold Picture.over fillPicture Picture.span
    grind
  rw [Sketch.fill, Sketch.fill, hmax, ← over_assoc, hpicture]

/-- A fill changes nothing above the line of the sketch. -/
theorem fill_above (sketch : Sketch) (bg : BitVec 32) (width bottom : Nat) {column line : Nat}
    (hline : line < sketch.y) :
    (sketch.fill bg width bottom).picture column line = sketch.picture column line := by
  have hnone : fillPicture bg width sketch.y bottom column line = none := if_neg (by omega)
  show (fillPicture bg width sketch.y bottom column line).or _ = _
  rw [hnone, Option.none_or]

/-- The lines above a fragment are filled. -/
theorem fill_lines_traces (hscreen : dst.OnScreen) (width : Nat) {bottom rounds : Nat}
    (h : Traces hfits before pen sketch) (hrounds : bottom - pen.y = rounds) :
    Traces hfits before (fillLines dst width rounds pen)
      (sketch.fill dst.bg width bottom) := by
  induction rounds generalizing pen sketch with
  | zero =>
      rw [fillLines]
      by_cases hline : dst.InsideHeight pen.y
      · have hy := h.line hline
        have hmax : max sketch.y bottom = sketch.y := by omega
        have hpicture : fillPicture dst.bg width sketch.y bottom = Picture.blank := by
          funext column line
          exact if_neg (by omega)
        have hsame : sketch.fill dst.bg width bottom = sketch := by
          rw [Sketch.fill, hmax, hpicture, blank_over]
        rwa [hsame]
      · exact h.below hscreen hline (Nat.le_max_left _ _)
          fun _ _ => fill_above sketch dst.bg width bottom
  | succ rounds ih =>
      rw [fillLines]
      split
      · next hline =>
          have hy := h.line hline
          have hfilled := fill_line_eq hfits hscreen hline width 0 pen.mem
          rw [Nat.mul_zero, BitVec.add_zero, ← h.o, Nat.zero_add] at hfilled
          rw [← fill_next sketch dst.bg width (by omega)]
          refine ih (h.next_line hline hfilled) ?_
          show bottom - (pen.y + 1) = rounds
          omega
      · next hline =>
          exact h.below hscreen hline (Nat.le_max_left _ _)
            fun _ _ => fill_above sketch dst.bg width bottom

/-- Filling the background keeps the sketch. -/
theorem fill_to_traces (hscreen : dst.OnScreen) (width bottom : Nat)
    (h : Traces hfits before pen sketch) :
    Traces hfits before (fillTo dst width bottom pen) (sketch.fill dst.bg width bottom) :=
  fill_lines_traces hscreen width h rfl

/-- The lines of a bitmap keep the sketch, when `i` of them have been drawn. -/
theorem draw_lines_traces (font : SsfnFont) (hscreen : dst.OnScreen) (frg top : Nat)
    (picture : Picture) (j i : Nat) {mask : BitMask}
    (hmask : mask.settle = BitMask.at (frg + 2) (i * font.fragmentWidth frg))
    (h : Traces hfits before pen
      { picture := (bitmapPicture font dst.ink frg top i).over picture, y := top + i }) :
    Traces hfits before (drawLines font dst (font.fragmentWidth frg) j mask pen)
      { picture := (bitmapPicture font dst.ink frg top (i + j)).over picture,
        y := top + (i + j) } := by
  induction j generalizing i pen mask with
  | zero => exact h
  | succ j ih =>
      rw [drawLines]
      split
      · next hline =>
          have hy : pen.y = top + i := h.line hline
          obtain ⟨hsettled, hdrawn⟩ := draw_line_eq font hfits hscreen hline frg
            (i * font.fragmentWidth frg) (font.fragmentWidth frg) 0 hmask pen.mem
          rw [Nat.mul_zero, BitVec.add_zero, ← h.o, Nat.zero_add] at hsettled hdrawn
          rw [← Nat.succ_mul] at hsettled
          have hadds : (Picture.span (top + i) 0 (font.fragmentWidth frg) fun c =>
              dst.ink.bit (font.fragmentBit frg (i * font.fragmentWidth frg + c))).over
                (bitmapPicture font dst.ink frg top i) =
              bitmapPicture font dst.ink frg top (i + 1) := by
            funext column line
            unfold Picture.over bitmapPicture Picture.span
            by_cases hlast : line = top + i
            · obtain rfl : line = top + i := hlast
              rw [if_neg (by omega : ¬ (top ≤ top + i ∧ top + i < top + i ∧ _)), Option.or_none,
                Nat.add_sub_cancel_left]
              grind
            · rw [if_neg (by omega), Option.none_or]
              grind
          have hnext := h.next_line hline hdrawn
          rw [← over_assoc, hadds] at hnext
          have hrest := ih (i + 1) hsettled hnext
          rwa [Nat.add_right_comm i 1 j] at hrest
      · next hline =>
          refine h.below hscreen hline (Nat.add_le_add_left (Nat.le_add_right i _) top) ?_
          intro column line hlt
          have hlt' : line < top + i := hlt
          unfold Picture.over bitmapPicture
          grind

/-- A bitmap keeps the sketch. -/
theorem draw_fragment_traces (hscreen : dst.OnScreen) (entry ptr : Nat)
    (h : Traces hfits before pen sketch) :
    Traces hfits before (drawFragment font dst entry ptr pen)
      (sketch.bitmap font dst.ink entry ptr) := by
  -- where the bitmap begins
  have hbegin : Traces hfits before
      (if dst.bg ≠ 0 then fillTo dst (font.glyphWidth entry) (font.fragmentTop ptr) pen
      else
        { pen with
          o := pen.o +
            BitVec.ofInt 64 (4 * (((font.fragmentTop ptr : Int) - pen.y) * dst.lineStep))
          y := font.fragmentTop ptr })
      (if dst.bg ≠ 0 then sketch.fill dst.bg (font.glyphWidth entry) (font.fragmentTop ptr)
      else { sketch with y := font.fragmentTop ptr }) := by
    split
    · exact fill_to_traces hscreen _ _ h
    · refine ⟨?_, h.mem, Or.inl rfl⟩
      show pen.o + _ = _
      rw [h.o, BitVec.add_assoc, ← BitVec.ofInt_natCast, ← BitVec.ofInt_natCast,
        ← BitVec.ofInt_add]
      congr 2
      push_cast
      ring
  rw [drawFragment, Sketch.bitmap, ink_bg]
  generalize (if dst.bg ≠ 0 then fillTo dst (font.glyphWidth entry) (font.fragmentTop ptr) pen
    else _) = pen at hbegin ⊢
  generalize (if dst.bg ≠ 0 then
    sketch.fill dst.bg (font.glyphWidth entry) (font.fragmentTop ptr) else _) = sketch at hbegin ⊢
  have hempty :
      bitmapPicture font dst.ink (font.fragment entry ptr) sketch.y 0 = Picture.blank := by
    funext column line
    exact if_neg (by omega)
  have hmask : BitMask.settle ⟨font.fragment entry ptr + 2, 1⟩ =
      BitMask.at (font.fragment entry ptr + 2)
        (0 * font.fragmentWidth (font.fragment entry ptr)) := by
    rw [Nat.zero_mul]
    rfl
  have hdrawn := draw_lines_traces font hscreen (font.fragment entry ptr) sketch.y sketch.picture
    (font.fragmentHeight (font.fragment entry ptr)) 0 hmask
    (by rw [hempty, blank_over]; exact hbegin)
  rwa [Nat.zero_add] at hdrawn

/-- The loop over the descriptors keeps the sketch. -/
theorem draw_fragments_traces (font : SsfnFont) (hscreen : dst.OnScreen) (entry rounds ptr : Nat)
    (h : Traces hfits before pen sketch) :
    Traces hfits before (drawFragments font dst entry rounds ptr pen)
      (Sketch.bitmaps font dst.ink entry rounds ptr sketch) := by
  induction rounds generalizing ptr pen sketch with
  | zero => exact h
  | succ rounds ih =>
      rw [drawFragments, Sketch.bitmaps]
      split
      · exact ih _ (draw_fragment_traces hscreen entry ptr h)
      · exact ih _ h

/-- `ssfn_putc` paints the visible part of the glyph's picture at the cursor. -/
theorem draw_glyph_eq_paint (hfits : dst.Fits) (hscreen : dst.OnScreen) (entry : Nat)
    (mem : ByteMemory) :
    drawGlyph font dst entry mem =
      (dst.geometry hfits).paint
        ((glyphPicture font dst.ink entry).shift dst.x.toNat dst.y.toNat) mem := by
  have hstart : Traces hfits mem ⟨mem, dst.origin, 0⟩ ⟨Picture.blank, 0⟩ := by
    refine ⟨?_, ?_, Or.inl rfl⟩
    · show dst.origin = _
      rw [Nat.mul_zero, BitVec.add_zero]
    · show mem = _
      rw [shift_blank, paint_blank]
  have hdrawn := draw_fragments_traces font hscreen entry (font.fragments entry)
    (entry + 6) hstart
  rw [drawGlyph, glyphPicture, ink_bg]
  split
  · exact (fill_to_traces hscreen _ _ hdrawn).mem
  · exact hdrawn.mem

/-! ## A font with one letter -/

/-- A font of 8 by 16 pixels with a bitmap for the letter A. -/
def letterFont : SsfnFont where
  byte k :=
    [chr 'S', chr 'F', chr 'N', chr '2', 63, 0, 0, 0, 0, 0, 8, 16, 14, 0, 0, 0, 32, 0, 0, 0,
      0, 0, 0, 0, 0, 0, 0, 0, 0, 0, 0, 0, 0xbf, 0x80, 0, 1, 8, 16, 8, 0, 0, 0, 45, 0, 0,
      0x80, 15, 0, 0, 0x18, 0x3c, 0x66, 0x66, 0x66, 0x7e, 0x66, 0x66, 0x66, 0x66, 0, 0, 0,
      0].getD k 0

/-- White on black, as `conlib_init` sets the colours. -/
def consoleInk : Ink :=
  ⟨0xffffffff, 0⟩

/-- The letter is its only bitmap. -/
theorem letter_picture : glyphPicture letterFont consoleInk 34 =
    bitmapPicture letterFont consoleInk 45 0 16 :=
  over_blank _

/-- A screen of 1024 columns and 768 lines fits in its framebuffer. -/
theorem screen_fits_1024 : (conlibInit 0x80000000 1024 768 4096).Fits :=
  ⟨by decide, by decide, by decide, by decide, by decide⟩

end SiStultum
