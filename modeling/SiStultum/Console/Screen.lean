import SiStultum.Console.Clear
import SiStultum.Console.Glyphs
import SiStultum.Console.Grid

/-!
# The console and its pixels

The functions of `conlib.c` on a framebuffer in memory. `putc_all_paints` relates them to the
console that only remembers which glyph it has drawn where: the framebuffer holds the pictures of
these glyphs. `screen_calls_confined` says that no sequence of calls leaves the framebuffer.
-/

namespace SiStultum

open ByteMemory Framebuffer

/-- `ssfn_dst`, and the memory with the framebuffer in it. -/
structure Screen where
  dst : SsfnBuf
  mem : ByteMemory

namespace Screen

/-- What `ssfn_putc` returns. -/
inductive Status where
  | ok
  | invinp
  | noglyph
  deriving DecidableEq

/-- `SSFN_OK`, `SSFN_ERR_INVINP` and `SSFN_ERR_NOGLYPH`. -/
def Status.code : Status → BitVec 32
  | .ok => 0
  | .invinp => -4
  | .noglyph => -7

variable (font : SsfnFont)

/-- `ssfn_putc`. -/
def ssfnPutc (unicode : BitVec 32) (s : Screen) : Status × Screen :=
  if !font.hasMagic || s.dst.ptr == 0 || s.dst.p == 0 then (.invinp, s)
  else
    match font.charEntry unicode with
    | none => (.noglyph, s)
    | some entry =>
        (.ok,
          { dst :=
              { s.dst with
                x := s.dst.x + (font.byte (entry + 4)).setWidth 32
                y := s.dst.y + (font.byte (entry + 5)).setWidth 32 }
            mem := drawGlyph font s.dst entry s.mem })

/-- The cursor goes to the beginning of the next line. -/
def newLine (s : Screen) : Screen :=
  { s with dst := { s.dst with y := s.dst.y + font.height.setWidth 32, x := 0 } }

/-- What `putc` does before it looks at the end of the line. -/
def putChar (ch : BitVec 32) (s : Screen) : Screen :=
  if ch = 0x0a then s.newLine font
  else if ch = 0x0d then { s with dst := { s.dst with x := 0 } }
  else if ch = 0x09 then s
  else (s.ssfnPutc font ch).2

/-- `putc`. -/
def putc (ch : BitVec 32) (s : Screen) : Screen :=
  if (s.putChar font ch).dst.w.sle (s.putChar font ch).dst.x then (s.putChar font ch).newLine font
  else s.putChar font ch

/-- `puts`, on the readable characters from the pointer on. There is no result when they have no
end. -/
def puts : List Char8 → Screen → Option Screen
  | [], _ => none
  | c :: rest, s => if c = 0 then some s else puts rest (s.putc font (c.signExtend 32))

/-- `putln`. -/
def putln (text : List Char8) (s : Screen) : Option Screen := do
  let after ← s.puts font text
  return after.putc font 0x0a

/-- The loop of `puts_n` and of `putsx`. -/
def putsN : List (List Char8) → Screen → Option Screen
  | [], s => some s
  | text :: texts, s => do
      let after ← s.puts font text
      putsN texts after

/-- `set_color`. -/
def setColor (fg bg : BitVec 32) (s : Screen) : Screen :=
  { s with dst := { s.dst with fg := fg, bg := bg } }

/-- `putsx`. -/
def putsx (fg bg : BitVec 32) (texts : List (List Char8)) (s : Screen) : Option Screen := do
  let after ← (s.setColor fg bg).putsN font texts
  return after.setColor s.dst.fg s.dst.bg

/-- `while (x < 0) x += step;`, in at most `fuel` rounds. -/
def wrapUp (step : Int) : (fuel : Nat) → Int → Option Int
  | 0, x => if x < 0 then none else some x
  | fuel + 1, x => if x < 0 then wrapUp step fuel (x + step) else some x

/-- A coordinate of `puts_at`. A division by zero has no result, and neither has a loop that does
not come to an end: a step of at least one needs at most `-x` rounds. -/
def wrapCoordinate (size cell x : Int) : Option Int :=
  if cell = 0 ∧ x < 0 then none else wrapUp (size.tdiv cell) (-x).toNat x

/-- `puts_at`. -/
def putsAt (x y : BitVec 32) (text : List Char8) (s : Screen) : Option Screen := do
  let column ← wrapCoordinate s.dst.w.toInt font.width.toNat x.toInt
  let line ← wrapCoordinate s.dst.h.toInt font.height.toNat y.toInt
  let after ← puts font text
    { s with
      dst :=
        { s.dst with
          x := BitVec.ofInt 32 (column * font.width.toNat)
          y := BitVec.ofInt 32 (line * font.height.toNat) } }
  return { after with dst := { after.dst with x := s.dst.x, y := s.dst.y } }

/-- Print one character after the other. -/
def putcAll (text : List (BitVec 32)) (s : Screen) : Screen :=
  text.foldl (fun s ch => s.putc font ch) s

end Screen

/-- A call of the console. -/
inductive ScreenCall where
  | putc (ch : BitVec 32)
  | puts (text : List Char8)
  | putln (text : List Char8)
  | putsN (texts : List (List Char8))
  | putsx (fg bg : BitVec 32) (texts : List (List Char8))
  | putsAt (x y : BitVec 32) (text : List Char8)
  | setColor (fg bg : BitVec 32)
  | cls

def ScreenCall.run (font : SsfnFont) : ScreenCall → Screen → Option Screen
  | .putc ch, s => some (s.putc font ch)
  | .puts text, s => s.puts font text
  | .putln text, s => s.putln font text
  | .putsN texts, s => s.putsN font texts
  | .putsx fg bg texts, s => s.putsx font fg bg texts
  | .putsAt x y text, s => s.putsAt font x y text
  | .setColor fg bg, s => some (s.setColor fg bg)
  | .cls, s => some { s with mem := SiStultum.cls s.dst s.mem }

/-- One call after the other. -/
def screenCalls (font : SsfnFont) : List ScreenCall → Screen → Option Screen
  | [], s => some s
  | call :: calls, s => do
      let after ← call.run font s
      screenCalls font calls after

/-! ## What stays as it is -/

/-- What the functions of the console do not change, apart from the colours. -/
def SsfnBuf.frame (dst : SsfnBuf) : BitVec 64 × BitVec 32 × BitVec 32 × BitVec 16 :=
  (dst.ptr, dst.w, dst.h, dst.p)

variable {font : SsfnFont} {s : Screen} {dst other : SsfnBuf}

/-- The frame is the place and the size of the framebuffer. -/
theorem frame_eq_iff : other.frame = dst.frame ↔
    other.ptr = dst.ptr ∧ other.w = dst.w ∧ other.h = dst.h ∧ other.p = dst.p := by
  simp only [SsfnBuf.frame, Prod.mk.injEq]

/-- The framebuffer, the colours and the cursor are all there is. -/
theorem dst_eq_of_parts (hframe : other.frame = dst.frame) (hink : other.ink = dst.ink)
    (hx : other.x = dst.x) (hy : other.y = dst.y) : other = dst := by
  obtain ⟨hptr, hw, hh, hp⟩ := frame_eq_iff.mp hframe
  obtain ⟨hfg, hbg⟩ := Ink.mk.injEq .. ▸ hink
  cases other
  cases dst
  simp_all

/-- Whether a renderer fits is a matter of its frame. -/
theorem SsfnBuf.Fits.of_frame (h : dst.Fits) (hframe : other.frame = dst.frame) : other.Fits := by
  obtain ⟨-, hw, hh, hp⟩ := frame_eq_iff.mp hframe
  exact ⟨by rw [hw]; exact h.width, by rw [hh]; exact h.height, by rw [hp]; exact h.aligned,
    by rw [hw, hp]; exact h.pitch, by rw [hh, hp]; exact h.size⟩

/-- So is the geometry of its framebuffer. -/
theorem geometry_of_frame (hframe : other.frame = dst.frame) (h : dst.Fits) (hother : other.Fits) :
    other.geometry hother = dst.geometry h := by
  obtain ⟨hptr, hw, hh, hp⟩ := frame_eq_iff.mp hframe
  simp only [SsfnBuf.geometry, hptr, hw, hh, hp]

/-- `ssfn_putc` returns what it was given, or draws a glyph. -/
theorem ssfn_putc_cases (font : SsfnFont) (ch : BitVec 32) (s : Screen) (drawn : List DrawnGlyph) :
    ((s.ssfnPutc font ch).2 = s ∧ (ssfnPutc font ch ⟨s.dst, drawn⟩).2 = ⟨s.dst, drawn⟩) ∨
      ∃ entry, font.charEntry ch = some entry ∧
        (s.ssfnPutc font ch).2 =
          { dst :=
              { s.dst with
                x := s.dst.x + (font.byte (entry + 4)).setWidth 32
                y := s.dst.y + (font.byte (entry + 5)).setWidth 32 }
            mem := drawGlyph font s.dst entry s.mem } ∧
        (ssfnPutc font ch ⟨s.dst, drawn⟩).2 =
          ⟨(s.ssfnPutc font ch).2.dst, drawn ++ [⟨ch, s.dst.x, s.dst.y⟩]⟩ := by
  unfold Screen.ssfnPutc ssfnPutc
  split
  · exact .inl ⟨rfl, rfl⟩
  · cases hentry : font.charEntry ch with
    | none => exact .inl ⟨rfl, rfl⟩
    | some entry => exact .inr ⟨entry, rfl, rfl, rfl⟩

/-- `ssfn_putc` keeps the frame and the colours. -/
theorem ssfn_putc_frame (font : SsfnFont) (ch : BitVec 32) (s : Screen) :
    (s.ssfnPutc font ch).2.dst.frame = s.dst.frame ∧
      (s.ssfnPutc font ch).2.dst.ink = s.dst.ink := by
  obtain ⟨hsame, -⟩ | ⟨entry, -, hdrawn, -⟩ := ssfn_putc_cases font ch s []
  · rw [hsame]
    exact ⟨rfl, rfl⟩
  · rw [hdrawn]
    exact ⟨rfl, rfl⟩

/-- So does a character and the move of the cursor after it. -/
theorem put_char_frame (font : SsfnFont) (ch : BitVec 32) (s : Screen) :
    (s.putChar font ch).dst.frame = s.dst.frame ∧ (s.putChar font ch).dst.ink = s.dst.ink := by
  unfold Screen.putChar
  split_ifs
  · exact ⟨rfl, rfl⟩
  · exact ⟨rfl, rfl⟩
  · exact ⟨rfl, rfl⟩
  · exact ssfn_putc_frame font ch s

/-- `putc` moves the cursor and draws. -/
theorem putc_frame (font : SsfnFont) (ch : BitVec 32) (s : Screen) :
    (s.putc font ch).dst.frame = s.dst.frame ∧ (s.putc font ch).dst.ink = s.dst.ink := by
  unfold Screen.putc
  split
  · exact put_char_frame font ch s
  · exact put_char_frame font ch s

/-- So does a text. -/
theorem putc_all_frame (font : SsfnFont) (text : List (BitVec 32)) (s : Screen) :
    (s.putcAll font text).dst.frame = s.dst.frame ∧
      (s.putcAll font text).dst.ink = s.dst.ink := by
  induction text generalizing s with
  | nil => exact ⟨rfl, rfl⟩
  | cons ch text ih =>
      obtain ⟨hframe, hink⟩ := putc_frame font ch s
      obtain ⟨hrest, hrestink⟩ := ih (s.putc font ch)
      exact ⟨hrest.trans hframe, hrestink.trans hink⟩

/-! ## The cursor -/

/-- The cursor is between the left end of the screen and a column, and between the upper end and a
line. -/
structure Screen.Within (s : Screen) (limit bound : Int) : Prop where
  fits : s.dst.Fits
  left : 0 ≤ s.dst.x.toInt
  right : s.dst.x.toInt < limit
  upper : 0 ≤ s.dst.y.toInt
  lower : s.dst.y.toInt ≤ bound

/-- A cursor that is within its bounds is on the screen. -/
theorem Screen.Within.on_screen {limit bound : Int} (h : s.Within limit bound) :
    s.dst.OnScreen :=
  ⟨h.left, h.upper⟩

/-- A width fits a pitch of 16 bits. -/
theorem width_lt (h : dst.Fits) : dst.w.toInt < 2 ^ 14 := by
  have hw := to_int_of_nonneg (Int.le_of_lt h.width)
  have hpitch := h.pitch
  have hp := dst.p.isLt
  omega

/-- The sum of a coordinate and a byte. -/
theorem add_byte_to_int {value : BitVec 32} (byte : BitVec 8) (hnonneg : 0 ≤ value.toInt)
    (hbound : value.toInt + 255 < 2 ^ 31) :
    (value + byte.setWidth 32).toInt = value.toInt + byte.toNat := by
  obtain ⟨hvalue, -⟩ := to_int_of_nonneg hnonneg
  have hbyte := byte.isLt
  have hsum : (value + byte.setWidth 32).toNat = value.toNat + byte.toNat := by
    rw [BitVec.toNat_add, BitVec.toNat_setWidth]
    omega
  rw [BitVec.toInt_eq_toNat_of_lt (by omega), hsum]
  omega

/-- The beginning of a line. -/
theorem Screen.Within.line_start {limit bound other : Int} (h : s.Within limit bound)
    (hother : 0 < other) : Screen.Within { s with dst := { s.dst with x := 0 } } other bound :=
  ⟨h.fits.of_frame rfl, Int.le_refl 0, hother, h.upper, h.lower⟩

/-- The beginning of the next line. -/
theorem Screen.Within.new_line {limit bound other : Int} (h : s.Within limit bound)
    (hbound : bound + 255 < 2 ^ 31) (hother : 0 < other) :
    (s.newLine font).Within other (bound + 255) := by
  have hlower := h.lower
  have hupper := h.upper
  have hheight := font.height.isLt
  have hy := add_byte_to_int font.height h.upper (by omega)
  refine ⟨h.fits.of_frame rfl, Int.le_refl 0, hother, ?_, ?_⟩
  · show 0 ≤ (s.dst.y + font.height.setWidth 32).toInt
    omega
  · show (s.dst.y + font.height.setWidth 32).toInt ≤ bound + 255
    omega

/-- Before the end of the line is looked at, the cursor has moved by two bytes at most. -/
theorem put_char_cursor (font : SsfnFont) {limit bound : Int} (h : s.Within limit bound)
    (hlimit : limit ≤ 2 ^ 30) (hbound : bound + 510 < 2 ^ 31) (ch : BitVec 32) :
    (s.putChar font ch).Within (2 ^ 31) (bound + 255) := by
  have hleft := h.left
  have hright := h.right
  have hupper := h.upper
  have hlower := h.lower
  have hkept : s.Within (2 ^ 31) (bound + 255) :=
    ⟨h.fits, hleft, by omega, hupper, by omega⟩
  unfold Screen.putChar
  split_ifs
  · exact h.new_line (by omega) (by decide)
  · exact hkept.line_start (by decide)
  · exact hkept
  · obtain ⟨hsame, -⟩ | ⟨entry, -, hdrawn, -⟩ := ssfn_putc_cases font ch s []
    · rwa [hsame]
    · have hx := add_byte_to_int (font.byte (entry + 4)) h.left (by omega)
      have hy := add_byte_to_int (font.byte (entry + 5)) h.upper (by omega)
      have hadvance := (font.byte (entry + 4)).isLt
      have hdown := (font.byte (entry + 5)).isLt
      rw [hdrawn]
      refine ⟨h.fits.of_frame rfl, ?_, ?_, ?_, ?_⟩
      · show 0 ≤ (s.dst.x + _).toInt
        omega
      · show (s.dst.x + _).toInt < 2 ^ 31
        omega
      · show 0 ≤ (s.dst.y + _).toInt
        omega
      · show (s.dst.y + _).toInt ≤ bound + 255
        omega

/-- After `putc` the cursor is in the line again. -/
theorem putc_within (font : SsfnFont) {limit bound : Int} (h : s.Within limit bound)
    (hlimit : limit ≤ 2 ^ 30) (hbound : bound + 510 < 2 ^ 31) (ch : BitVec 32) :
    (s.putc font ch).Within s.dst.w.toInt (bound + 510) := by
  have hmoved := put_char_cursor font h hlimit hbound ch
  have hwidth : (s.putChar font ch).dst.w = s.dst.w :=
    (frame_eq_iff.mp (put_char_frame font ch s).1).2.1
  have hsum : bound + 255 + 255 = bound + 510 := by omega
  unfold Screen.putc
  split
  · rw [← hsum]
    exact hmoved.new_line (by omega) h.fits.width
  · next hinside =>
      rw [hwidth, BitVec.sle_iff_toInt_le] at hinside
      have hlower := hmoved.lower
      exact ⟨hmoved.fits, hmoved.left, Int.lt_of_not_ge hinside, hmoved.upper, by omega⟩

/-- A text does not move the cursor out of its lines. -/
theorem putc_all_within (font : SsfnFont) (text : List (BitVec 32)) {limit bound : Int}
    (h : s.Within limit bound) (hlimit : limit ≤ 2 ^ 30) (hwidth : s.dst.w.toInt ≤ limit)
    (hbound : bound + 510 * text.length < 2 ^ 31) :
    (s.putcAll font text).Within limit (bound + 510 * text.length) := by
  induction text generalizing s bound with
  | nil =>
      show s.Within limit (bound + 510 * (0 : Int))
      rwa [Int.mul_zero, Int.add_zero]
  | cons ch text ih =>
      rw [List.length_cons] at hbound ⊢
      push_cast at hbound ⊢
      have hnext := putc_within font h hlimit (by omega) ch
      have hsame : (s.putc font ch).dst.w = s.dst.w :=
        (frame_eq_iff.mp (putc_frame font ch s).1).2.1
      have hloose : (s.putc font ch).Within limit (bound + 510) :=
        ⟨hnext.fits, hnext.left, Int.lt_of_lt_of_le hnext.right hwidth, hnext.upper, hnext.lower⟩
      have hrest := ih hloose (by rw [hsame]; exact hwidth) (by omega)
      have hsum : bound + 510 + 510 * (text.length : Int) = bound + 510 * (text.length + 1) := by
        omega
      rwa [hsum] at hrest

/-! ## What a text looks like -/

/-- The picture of a glyph in the place where it was drawn. -/
def DrawnGlyph.picture (font : SsfnFont) (ink : Ink) (glyph : DrawnGlyph) : Picture :=
  match font.charEntry glyph.unicode with
  | some entry => (glyphPicture font ink entry).shift glyph.x.toNat glyph.y.toNat
  | none => Picture.blank

/-- `ssfn_putc` paints the glyph that the console remembers. -/
theorem ssfn_putc_paints (hfits : s.dst.Fits) (hscreen : s.dst.OnScreen) (ch : BitVec 32)
    (drawn : List DrawnGlyph) :
    ∃ glyphs,
      (ssfnPutc font ch ⟨s.dst, drawn⟩).2 = ⟨(s.ssfnPutc font ch).2.dst, drawn ++ glyphs⟩ ∧
        (s.ssfnPutc font ch).2.mem = paintAll (s.dst.geometry hfits)
          (glyphs.map (DrawnGlyph.picture font s.dst.ink)) s.mem := by
  obtain ⟨hsame, hconsole⟩ | ⟨entry, hentry, hdrawn, hconsole⟩ :=
    ssfn_putc_cases font ch s drawn
  · refine ⟨[], ?_, ?_⟩
    · rw [hconsole, hsame, List.append_nil]
    · rw [hsame]
      rfl
  · refine ⟨[⟨ch, s.dst.x, s.dst.y⟩], hconsole, ?_⟩
    have hpicture : DrawnGlyph.picture font s.dst.ink ⟨ch, s.dst.x, s.dst.y⟩ =
        (glyphPicture font s.dst.ink entry).shift s.dst.x.toNat s.dst.y.toNat := by
      rw [DrawnGlyph.picture, hentry]
    rw [hdrawn, List.map_singleton, hpicture]
    exact draw_glyph_eq_paint hfits hscreen entry s.mem

/-- `putc` paints the glyph that the console remembers, if any. -/
theorem putc_paints (font : SsfnFont) (hfits : s.dst.Fits) (hscreen : s.dst.OnScreen)
    (ch : BitVec 32) (drawn : List DrawnGlyph) :
    ∃ glyphs, putc font ch ⟨s.dst, drawn⟩ = ⟨(s.putc font ch).dst, drawn ++ glyphs⟩ ∧
      (s.putc font ch).mem = paintAll (s.dst.geometry hfits)
        (glyphs.map (DrawnGlyph.picture font s.dst.ink)) s.mem := by
  obtain ⟨glyphs, hconsole, hmem⟩ : ∃ glyphs,
      putChar font ch ⟨s.dst, drawn⟩ = ⟨(s.putChar font ch).dst, drawn ++ glyphs⟩ ∧
        (s.putChar font ch).mem = paintAll (s.dst.geometry hfits)
          (glyphs.map (DrawnGlyph.picture font s.dst.ink)) s.mem := by
    unfold Screen.putChar putChar
    split_ifs
    · exact ⟨[], by rw [List.append_nil]; rfl, rfl⟩
    · exact ⟨[], by rw [List.append_nil], rfl⟩
    · exact ⟨[], by rw [List.append_nil], rfl⟩
    · exact ssfn_putc_paints hfits hscreen ch drawn
  refine ⟨glyphs, ?_, ?_⟩
  · unfold Screen.putc putc
    rw [hconsole]
    dsimp only
    split <;> rfl
  · rw [← hmem]
    unfold Screen.putc
    split <;> rfl

/-- A text paints the glyphs that the console remembers. -/
theorem putc_all_paints (font : SsfnFont) {limit bound : Int} (h : s.Within limit bound)
    (hlimit : limit ≤ 2 ^ 30) (hwidth : s.dst.w.toInt ≤ limit) {text : List (BitVec 32)}
    (hbound : bound + 510 * text.length < 2 ^ 31) (drawn : List DrawnGlyph) :
    ∃ glyphs, putcAll font text ⟨s.dst, drawn⟩ = ⟨(s.putcAll font text).dst, drawn ++ glyphs⟩ ∧
      (s.putcAll font text).mem = paintAll (s.dst.geometry h.fits)
        (glyphs.map (DrawnGlyph.picture font s.dst.ink)) s.mem := by
  induction text generalizing s bound drawn with
  | nil => exact ⟨[], by rw [List.append_nil]; rfl, rfl⟩
  | cons ch text ih =>
      rw [List.length_cons] at hbound
      push_cast at hbound
      obtain ⟨first, hconsole, hmem⟩ := putc_paints font h.fits h.on_screen ch drawn
      obtain ⟨hframe, hink⟩ := putc_frame font ch s
      have hnext := putc_within font h hlimit (by omega) ch
      have hloose : (s.putc font ch).Within limit (bound + 510) :=
        ⟨hnext.fits, hnext.left, Int.lt_of_lt_of_le hnext.right hwidth, hnext.upper, hnext.lower⟩
      have hsame := (frame_eq_iff.mp hframe).2.1
      obtain ⟨rest, hrest, hrestmem⟩ :=
        ih hloose (by rw [hsame]; exact hwidth) (by omega) (drawn ++ first)
      refine ⟨first ++ rest, ?_, ?_⟩
      · show putcAll font text (putc font ch ⟨s.dst, drawn⟩) = _
        rw [hconsole, hrest, List.append_assoc]
        rfl
      · show ((s.putc font ch).putcAll font text).mem = _
        rw [hrestmem, hmem, geometry_of_frame hframe h.fits, hink, List.map_append]
        exact List.foldl_append.symm

/-- The framebuffer shows the text: the memory is what it was, with the visible part of the glyphs
that the console remembers painted in their places, the later ones in front. -/
theorem text_painted (font : SsfnFont) (text : List (BitVec 32)) (hfits : s.dst.Fits)
    (hleft : 0 ≤ s.dst.x.toInt) (hright : s.dst.x.toInt < s.dst.w.toInt)
    (hupper : 0 ≤ s.dst.y.toInt) (hroom : s.dst.y.toInt + 510 * text.length < 2 ^ 31) :
    (s.putcAll font text).dst = (putcAll font text ⟨s.dst, []⟩).dst ∧
      (s.putcAll font text).mem = (s.dst.geometry hfits).paint
        (Picture.pile ((putcAll font text ⟨s.dst, []⟩).drawn.map
          (DrawnGlyph.picture font s.dst.ink))) s.mem := by
  have hwidth := width_lt hfits
  obtain ⟨glyphs, hconsole, hmem⟩ := putc_all_paints font
    ⟨hfits, hleft, hright, hupper, Int.le_refl _⟩ (by omega) (Int.le_refl _) hroom []
  rw [List.nil_append] at hconsole
  rw [hconsole, hmem, paint_all_eq]
  exact ⟨rfl, rfl⟩

/-- The screen after `conlib_init`. -/
def blankScreen : Screen where
  dst := conlibInit 0x80000000 1024 768 4096
  mem _ := 0

/-- `ssfn_putc` changes nothing without a font or a framebuffer, or for a character without a
glyph. Otherwise it paints the visible part of the glyph's picture at the cursor, and advances the
cursor. -/
theorem ssfn_putc_draws {font : SsfnFont} {s : Screen} (hfits : s.dst.Fits)
    (hscreen : s.dst.OnScreen) (ch : BitVec 32) :
    s.ssfnPutc font ch =
      if font.hasMagic = false ∨ s.dst.ptr = 0 then (.invinp, s)
      else
        match font.charEntry ch with
        | none => (.noglyph, s)
        | some entry =>
            (.ok,
              { dst :=
                  { s.dst with
                    x := s.dst.x + (font.byte (entry + 4)).setWidth 32
                    y := s.dst.y + (font.byte (entry + 5)).setWidth 32 }
                mem := (s.dst.geometry hfits).paint
                  ((glyphPicture font s.dst.ink entry).shift s.dst.x.toNat s.dst.y.toNat)
                  s.mem }) := by
  have hpitch : (s.dst.p == 0) = false := by
    rw [beq_eq_false_iff_ne]
    intro hzero
    have hlines := hfits.pitch
    have hwidth := hfits.width
    obtain ⟨hint, -⟩ := to_int_of_nonneg (Int.le_of_lt hwidth)
    have hnone : s.dst.p.toNat = 0 := congrArg BitVec.toNat hzero
    omega
  rw [Screen.ssfnPutc, hpitch, Bool.or_false]
  by_cases hmissing : font.hasMagic = false ∨ s.dst.ptr = 0
  · rw [if_pos hmissing, if_pos]
    simpa using hmissing
  · rw [if_neg hmissing, if_neg]
    · cases font.charEntry ch with
      | none => rfl
      | some entry =>
          dsimp only
          rw [draw_glyph_eq_paint hfits hscreen]
    · simpa using hmissing

/-- The letter A on the empty screen. -/
theorem letter_drawn :
    blankScreen.ssfnPutc letterFont 0x41 =
      (.ok,
        { dst := { blankScreen.dst with x := 8 }
          mem := (blankScreen.dst.geometry screen_fits_1024).paint
            ((glyphPicture letterFont consoleInk 34).shift 0 0) blankScreen.mem }) := by
  have hfound : letterFont.charEntry 0x41 = some 34 := by decide +kernel
  have hready : ¬ (letterFont.hasMagic = false ∨ blankScreen.dst.ptr = 0) := by decide
  rw [ssfn_putc_draws screen_fits_1024 ⟨by decide, by decide⟩, if_neg hready, hfound]
  rfl

/-! ## A sequence of calls -/

/-- The strings that a call prints. -/
def ScreenCall.texts : ScreenCall → List (List Char8)
  | .puts text => [text]
  | .putln text => [text]
  | .putsN texts => texts
  | .putsx _ _ texts => texts
  | .putsAt _ _ text => [text]
  | _ => []

/-- The number of characters that a call prints. -/
def ScreenCall.length : ScreenCall → Nat
  | .putc _ => 1
  | .putln text => (cString text).length + 1
  | call => (call.texts.map fun text => (cString text).length).sum

/-- The strings have an end, and no coordinate is too far to the right or down for an `int`. -/
structure ScreenCall.Regular (call : ScreenCall) : Prop where
  terminated : ∀ text ∈ call.texts, 0 ∈ text
  place : ∀ x y text, call = .putsAt x y text → x.toInt < 2 ^ 22 ∧ y.toInt < 2 ^ 22

/-- The font has cells of some size, and one of them fits the screen. -/
structure HasCells (font : SsfnFont) (dst : SsfnBuf) : Prop where
  width : 0 < font.width.toNat
  height : 0 < font.height.toNat
  fits_width : font.width.toNat ≤ dst.w.toNat
  fits_height : font.height.toNat ≤ dst.h.toNat

/-- The screen has the same framebuffer as before, and no byte outside it has changed. -/
structure Screen.Confined (s after : Screen) : Prop where
  frame : after.dst.frame = s.dst.frame
  outside : ∀ byte : BitVec 64, s.dst.h.toNat * s.dst.p.toNat ≤ (byte - s.dst.ptr).toNat →
    after.mem byte = s.mem byte

/-- One call after the other. -/
theorem Screen.Confined.trans {s between after : Screen} (hfirst : s.Confined between)
    (hsecond : between.Confined after) : s.Confined after := by
  obtain ⟨hptr, -, hh, hp⟩ := frame_eq_iff.mp hfirst.frame
  refine ⟨hsecond.frame.trans hfirst.frame, fun byte hbyte => ?_⟩
  rw [hsecond.outside byte (by rw [hptr, hh, hp]; exact hbyte), hfirst.outside byte hbyte]

/-- Only the cursor or the colours have changed. -/
theorem Screen.Confined.of_mem {s after : Screen} (hframe : after.dst.frame = s.dst.frame)
    (hmem : after.mem = s.mem) : s.Confined after :=
  ⟨hframe, fun _ _ => by rw [hmem]⟩

/-- A coordinate of `puts_at` as a number of a cell: from the right or the lower end when it is
negative. -/
def wrapped (cells : Nat) (x : Int) : Int :=
  if x < 0 then x % cells else x

/-- A coordinate that is wrapped is not negative. -/
theorem wrapped_nonneg {cells : Nat} (hcells : 0 < cells) (x : Int) : 0 ≤ wrapped cells x := by
  unfold wrapped
  split
  · exact Int.emod_nonneg x (by omega)
  · next hx => exact Int.le_of_not_gt hx

/-- A coordinate below the number of cells stays below it. -/
theorem wrapped_lt {cells : Nat} (hcells : 0 < cells) {x : Int} (hx : x < cells) :
    wrapped cells x < cells := by
  unfold wrapped
  split
  · exact Int.emod_lt_of_pos x (by omega)
  · exact hx

/-- The loop of `puts_at` adds until the sum is not negative, which leaves a remainder. -/
theorem wrap_up_eq {cells : Nat} (hcells : 0 < cells) {fuel : Nat} {x : Int}
    (hfuel : (-x).toNat ≤ fuel) : Screen.wrapUp cells fuel x = some (wrapped cells x) := by
  unfold wrapped
  induction fuel generalizing x with
  | zero => rw [Screen.wrapUp, if_neg (by omega), if_neg (by omega)]
  | succ fuel ih =>
      rw [Screen.wrapUp]
      by_cases hx : x < 0
      · rw [if_pos hx, if_pos hx, ih (by omega)]
        by_cases hnext : x + cells < 0
        · rw [if_pos hnext, Int.add_emod_right]
        · rw [if_neg hnext, ← Int.add_emod_right x cells,
            Int.emod_eq_of_lt (by omega) (by omega)]
      · rw [if_neg hx, if_neg hx]

/-- A coordinate is counted in whole cells. -/
theorem wrap_coordinate_eq {size cell : Nat} (hcell : 0 < cell) (hfits : cell ≤ size) (x : Int) :
    Screen.wrapCoordinate size cell x = some (wrapped (size / cell) x) := by
  have hcells : (size : Int).tdiv cell = (size / cell : Nat) := by
    rw [Int.tdiv_eq_ediv_of_nonneg (Int.natCast_nonneg size), Int.natCast_ediv]
  rw [Screen.wrapCoordinate, if_neg (by omega), hcells]
  exact wrap_up_eq (Nat.div_pos hfits hcell) (Nat.le_refl _)

/-- The text of `puts`. -/
theorem screen_puts_eq {text : List Char8} (htext : 0 ∈ text) (s : Screen) :
    s.puts font text = some (s.putcAll font ((cString text).map (·.signExtend 32))) := by
  induction text generalizing s with
  | nil => cases htext
  | cons c rest ih =>
      rw [Screen.puts, cString, List.takeWhile_cons]
      by_cases hc : c = 0
      · rw [if_pos hc, if_neg (by simpa using hc)]
        rfl
      · have hrest : 0 ∈ rest := (List.mem_cons.mp htext).resolve_left (Ne.symm hc)
        rw [if_neg hc, if_pos (by simpa using hc), ih hrest]
        rfl

/-- `puts` returns for every string with an end, and the framebuffer shows the string: the memory is
what it was, with the visible part of the glyphs that the console remembers painted in their places,
the later ones in front. -/
theorem puts_painted {font : SsfnFont} {s : Screen} (hfits : s.dst.Fits)
    (hleft : 0 ≤ s.dst.x.toInt) (hright : s.dst.x.toInt < s.dst.w.toInt)
    (hupper : 0 ≤ s.dst.y.toInt) {text : List Char8} (htext : 0 ∈ text)
    (hroom : s.dst.y.toInt + 510 * (cString text).length < 2 ^ 31) :
    ∃ after con, s.puts font text = some after ∧ puts font text ⟨s.dst, []⟩ = .ok con ∧
      after.dst = con.dst ∧
      after.mem = (s.dst.geometry hfits).paint
        (Picture.pile (con.drawn.map (DrawnGlyph.picture font s.dst.ink))) s.mem := by
  obtain ⟨hdst, hmem⟩ := text_painted font ((cString text).map (·.signExtend 32)) hfits hleft
    hright hupper (by rw [List.length_map]; exact hroom)
  exact ⟨_, _, screen_puts_eq htext s, puts_eq_putc_all htext _, hdst, hmem⟩

/-- Two letters on the empty screen. -/
theorem two_letters_painted :
    ∃ after con, blankScreen.puts letterFont [chr 'A', chr 'A', 0] = some after ∧
      puts letterFont [chr 'A', chr 'A', 0] ⟨blankScreen.dst, []⟩ = .ok con ∧
      after.dst = con.dst ∧
      after.mem = (blankScreen.dst.geometry screen_fits_1024).paint
        (Picture.pile (con.drawn.map (DrawnGlyph.picture letterFont consoleInk)))
        blankScreen.mem :=
  puts_painted screen_fits_1024 (by decide) (by decide) (by decide) (by decide) (by decide)

/-- A text is drawn inside the framebuffer. -/
theorem putc_all_confined (font : SsfnFont) (text : List (BitVec 32)) {limit bound : Int}
    (h : s.Within limit bound) (hlimit : limit ≤ 2 ^ 30) (hwidth : s.dst.w.toInt ≤ limit)
    (hbound : bound + 510 * text.length < 2 ^ 31) : s.Confined (s.putcAll font text) := by
  obtain ⟨glyphs, -, hmem⟩ := putc_all_paints font h hlimit hwidth hbound []
  refine ⟨(putc_all_frame font text s).1, fun byte hbyte => ?_⟩
  rw [hmem, paint_all_eq]
  exact paint_beyond (g := s.dst.geometry h.fits) hbyte _ _

/-- A string leaves the cursor in its lines, and all but the framebuffer unchanged. -/
theorem puts_confined (font : SsfnFont) {limit bound : Int} (h : s.Within limit bound)
    (hlimit : limit ≤ 2 ^ 30) (hwidth : s.dst.w.toInt ≤ limit) {text : List Char8}
    (htext : 0 ∈ text) (hbound : bound + 510 * (cString text).length < 2 ^ 31) :
    ∃ after, s.puts font text = some after ∧ s.Confined after ∧
      after.Within limit (bound + 510 * (cString text).length) ∧ after.dst.ink = s.dst.ink := by
  have hlength : ((cString text).map (·.signExtend 32)).length = (cString text).length :=
    List.length_map _
  refine ⟨_, screen_puts_eq htext s, ?_, ?_, (putc_all_frame font _ s).2⟩
  · exact putc_all_confined font _ h hlimit hwidth (by rw [hlength]; exact hbound)
  · have hwithin := putc_all_within font ((cString text).map (·.signExtend 32)) h hlimit hwidth
      (by rw [hlength]; exact hbound)
    rwa [hlength] at hwithin

/-- `puts_n` writes to the framebuffer only, and keeps the cursor within its bounds. -/
theorem puts_n_confined (font : SsfnFont) (texts : List (List Char8)) {limit bound : Int}
    (h : s.Within limit bound) (hlimit : limit ≤ 2 ^ 30) (hwidth : s.dst.w.toInt ≤ limit)
    (htexts : ∀ text ∈ texts, 0 ∈ text)
    (hbound : bound + 510 * (texts.map fun text => (cString text).length).sum < 2 ^ 31) :
    ∃ after, s.putsN font texts = some after ∧ s.Confined after ∧
      after.Within limit
        (bound + 510 * (texts.map fun text => (cString text).length).sum) := by
  induction texts generalizing s bound with
  | nil =>
      refine ⟨s, rfl, .of_mem rfl rfl, ?_⟩
      show s.Within limit (bound + 510 * (0 : Int))
      rwa [Int.mul_zero, Int.add_zero]
  | cons text texts ih =>
      rw [List.map_cons, List.sum_cons, Int.natCast_add] at hbound ⊢
      obtain ⟨htext, hrest⟩ := List.forall_mem_cons.mp htexts
      obtain ⟨between, hfirst, hconfined, hwithin, -⟩ :=
        puts_confined font h hlimit hwidth htext (by omega)
      have hsame := (frame_eq_iff.mp hconfined.frame).2.1
      obtain ⟨after, hsecond, hconfined', hwithin'⟩ :=
        ih hwithin (by rw [hsame]; exact hwidth) hrest (by omega)
      refine ⟨after, ?_, hconfined.trans hconfined', ?_⟩
      · rw [Screen.putsN, hfirst]
        exact hsecond
      · rwa [Int.add_assoc, ← Int.mul_add] at hwithin'

/-- The screen while `puts_at` prints. -/
def Screen.moved (font : SsfnFont) (s : Screen) (x y : BitVec 32) : Screen :=
  { s with
    dst :=
      { s.dst with
        x := BitVec.ofInt 32
          (wrapped (s.dst.w.toNat / font.width.toNat) x.toInt * font.width.toNat)
        y := BitVec.ofInt 32
          (wrapped (s.dst.h.toNat / font.height.toNat) y.toInt * font.height.toNat) } }

/-- `puts_at` prints in its place, and puts the cursor back. -/
theorem puts_at_eq (hfits : s.dst.Fits) (hcells : HasCells font s.dst) (x y : BitVec 32)
    (text : List Char8) :
    s.putsAt font x y text =
      ((s.moved font x y).puts font text).map fun after =>
        { after with dst := { after.dst with x := s.dst.x, y := s.dst.y } } := by
  have hw := (to_int_of_nonneg (Int.le_of_lt hfits.width)).1
  have hh := (to_int_of_nonneg (Int.le_of_lt hfits.height)).1
  rw [Screen.putsAt, hw, hh, wrap_coordinate_eq hcells.width hcells.fits_width,
    wrap_coordinate_eq hcells.height hcells.fits_height]
  exact Option.map_eq_bind.symm

/-- A coordinate below 2 ^ 22 in cells is below 2 ^ 30 in pixels. -/
theorem place_bounds {size cell : Nat} (hcell : 0 < cell) (hbyte : cell < 256)
    (hfits : cell ≤ size) (hsize : size < 2 ^ 30) {x : Int} (hx : x < 2 ^ 22) :
    0 ≤ wrapped (size / cell) x * cell ∧ wrapped (size / cell) x * cell < 2 ^ 30 := by
  have hcells := Nat.div_pos hfits hcell
  have hnonneg := wrapped_nonneg hcells x
  refine ⟨Int.mul_nonneg hnonneg (Int.natCast_nonneg cell), ?_⟩
  by_cases hinside : x < (size / cell : Nat)
  · calc wrapped (size / cell) x * cell ≤ ((size / cell : Nat) : Int) * cell :=
          Int.mul_le_mul_of_nonneg_right (Int.le_of_lt (wrapped_lt hcells hinside))
            (Int.natCast_nonneg cell)
      _ = ((size / cell * cell : Nat) : Int) := by push_cast; rfl
      _ ≤ size := by exact_mod_cast Nat.div_mul_le_self size cell
      _ < 2 ^ 30 := by exact_mod_cast hsize
  · have hsame : wrapped (size / cell) x = x := if_neg (by omega)
    rw [hsame] at hnonneg ⊢
    calc x * cell ≤ x * 256 := Int.mul_le_mul_of_nonneg_left (by omega) hnonneg
      _ < 2 ^ 30 := by omega

/-- The lines of a framebuffer of less than 2 ^ 31 bytes. -/
theorem height_lt (h : dst.Fits) : dst.h.toNat < 2 ^ 30 := by
  have hw := to_int_of_nonneg (Int.le_of_lt h.width)
  have hwidth := h.width
  have hpitch := h.pitch
  have hsize := h.size
  have hfour : dst.h.toNat * 4 ≤ dst.h.toNat * dst.p.toNat :=
    Nat.mul_le_mul_left _ (by omega)
  omega

/-- A small coordinate is stored exactly. -/
theorem to_int_of_int {value : Int} (hlow : 0 ≤ value) (hhigh : value < 2 ^ 30) :
    (BitVec.ofInt 32 value).toInt = value := by
  rw [BitVec.toInt_ofInt]
  apply Int.bmod_eq_of_le <;> omega

/-- While `puts_at` prints, the cursor is not left of the screen or above it. -/
theorem moved_within (hfits : s.dst.Fits) (hcells : HasCells font s.dst) {x y : BitVec 32}
    (hx : x.toInt < 2 ^ 22) (hy : y.toInt < 2 ^ 22) :
    (s.moved font x y).Within (2 ^ 30) (2 ^ 30) := by
  have hw := width_lt hfits
  have hwidth := (to_int_of_nonneg (Int.le_of_lt hfits.width)).1
  have hcolumn := place_bounds hcells.width font.width.isLt hcells.fits_width (by omega) hx
  have hline := place_bounds hcells.height font.height.isLt hcells.fits_height (height_lt hfits) hy
  have hleft := to_int_of_int hcolumn.1 hcolumn.2
  have hupper := to_int_of_int hline.1 hline.2
  refine ⟨hfits.of_frame rfl, ?_, ?_, ?_, ?_⟩
  · exact hcolumn.1.trans_eq hleft.symm
  · exact hleft.trans_lt hcolumn.2
  · exact hline.1.trans_eq hupper.symm
  · exact hupper.trans_le (Int.le_of_lt hline.2)

/-- One call returns, draws inside the framebuffer and leaves the cursor in its line. -/
theorem call_confined {bound : Int} (h : s.Within s.dst.w.toInt bound)
    (hcells : HasCells font s.dst) {call : ScreenCall} (hcall : call.Regular)
    (hbound : bound + 510 * call.length < 2 ^ 30) :
    ∃ after, call.run font s = some after ∧ s.Confined after ∧
      after.Within s.dst.w.toInt (bound + 510 * call.length) := by
  have hwidth := width_lt h.fits
  have hlower := h.lower
  have hupper := h.upper
  cases call with
  | putc ch =>
      have hsum : bound + 510 * (ScreenCall.putc ch).length = bound + 510 := by
        show bound + 510 * (1 : Int) = _
        omega
      rw [hsum] at hbound ⊢
      refine ⟨_, rfl, ?_, putc_within font h (by omega) (by omega) ch⟩
      exact putc_all_confined font [ch] h (by omega) (Int.le_refl _)
        (by show bound + 510 * (1 : Int) < _; omega)
  | puts text =>
      have hlength : (ScreenCall.puts text).length = (cString text).length := Nat.add_zero _
      rw [hlength] at hbound ⊢
      obtain ⟨after, hrun, hconfined, hwithin, -⟩ := puts_confined font h (by omega)
        (Int.le_refl _) (hcall.terminated text List.mem_cons_self) (by omega)
      exact ⟨after, hrun, hconfined, hwithin⟩
  | putln text =>
      have hlength : (ScreenCall.putln text).length = (cString text).length + 1 := rfl
      rw [hlength] at hbound ⊢
      push_cast at hbound ⊢
      obtain ⟨after, hrun, hconfined, hwithin, -⟩ := puts_confined font h (by omega)
        (Int.le_refl _) (hcall.terminated text List.mem_cons_self) (by omega)
      have hsame := (frame_eq_iff.mp hconfined.frame).2.1
      have hline := putc_within font hwithin (by omega) (by omega) 0x0a
      have hdrawn := putc_all_confined font [0x0a] hwithin (by omega)
        (by rw [hsame]) (by show _ + 510 * (1 : Int) < _; omega)
      have hsum : bound + 510 * ((cString text).length : Int) + 510 =
          bound + 510 * ((cString text).length + 1) := by
        omega
      rw [hsame, hsum] at hline
      refine ⟨after.putc font 0x0a, ?_, hconfined.trans hdrawn, hline⟩
      rw [ScreenCall.run, Screen.putln, hrun]
      rfl
  | putsN texts =>
      exact puts_n_confined font texts h (by omega) (Int.le_refl _) hcall.terminated
        (Int.lt_trans hbound (by decide))
  | putsx fg bg texts =>
      have hcoloured : (s.setColor fg bg).Within s.dst.w.toInt bound :=
        ⟨h.fits.of_frame rfl, h.left, h.right, h.upper, h.lower⟩
      obtain ⟨after, hrun, hconfined, hwithin⟩ := puts_n_confined font texts hcoloured
        (by omega) (Int.le_refl _) hcall.terminated
        (Int.lt_trans hbound (by decide))
      have hbefore : s.Confined (s.setColor fg bg) := .of_mem rfl rfl
      refine ⟨after.setColor s.dst.fg s.dst.bg, ?_, ?_, ?_⟩
      · rw [ScreenCall.run, Screen.putsx, hrun]
        rfl
      · exact hbefore.trans (hconfined.trans (.of_mem rfl rfl))
      · exact ⟨hwithin.fits.of_frame rfl, hwithin.left, hwithin.right,
          hwithin.upper, hwithin.lower⟩
  | putsAt x y text =>
      have hlength : (ScreenCall.putsAt x y text).length = (cString text).length := Nat.add_zero _
      rw [hlength] at hbound ⊢
      obtain ⟨hx, hy⟩ := hcall.place x y text rfl
      obtain ⟨after, hrun, hconfined, -, -⟩ := puts_confined font
        (moved_within h.fits hcells hx hy) (Int.le_refl _)
        (by show s.dst.w.toInt ≤ _; omega) (hcall.terminated text List.mem_cons_self) (by omega)
      have hbefore : s.Confined (s.moved font x y) := .of_mem rfl rfl
      refine ⟨{ after with dst := { after.dst with x := s.dst.x, y := s.dst.y } }, ?_,
        hbefore.trans (hconfined.trans (.of_mem rfl rfl)), ?_⟩
      · rw [ScreenCall.run, puts_at_eq h.fits hcells, hrun]
        rfl
      · have hframe : after.dst.frame = s.dst.frame := hconfined.frame
        exact ⟨h.fits.of_frame hframe, h.left, h.right, h.upper,
          Int.le_trans h.lower (by omega)⟩
  | setColor fg bg =>
      refine ⟨_, rfl, .of_mem rfl rfl, h.fits.of_frame rfl, h.left, h.right,
        h.upper, ?_⟩
      exact Int.le_trans h.lower (by omega)
  | cls =>
      refine ⟨_, rfl, ⟨rfl, fun byte hbyte => ?_⟩, h.fits, h.left, h.right, h.upper,
        Int.le_trans h.lower (by omega)⟩
      have hpitch := h.fits.pitch
      have hfilled : 4 * clsLength s.dst ≤ s.dst.h.toNat * s.dst.p.toNat := by
        calc 4 * clsLength s.dst ≤ 4 * (s.dst.w.toNat * s.dst.h.toNat) := by
              rw [cls_length_eq]
              exact Nat.mul_le_mul_left 4 (Nat.mod_le _ _)
          _ = s.dst.h.toNat * (4 * s.dst.w.toNat) := by rw [← Nat.mul_assoc, Nat.mul_comm]
          _ ≤ s.dst.h.toNat * s.dst.p.toNat := Nat.mul_le_mul_left _ hpitch
      show SiStultum.cls s.dst s.mem byte = s.mem byte
      rw [cls_apply, if_neg (by omega)]

/-- Every sequence of calls returns, and changes no byte outside the framebuffer. -/
theorem screen_calls_confined {calls : List ScreenCall} (hfits : s.dst.Fits)
    (hcells : HasCells font s.dst) (hleft : 0 ≤ s.dst.x.toInt)
    (hright : s.dst.x.toInt < s.dst.w.toInt) (hupper : 0 ≤ s.dst.y.toInt)
    (hcalls : ∀ call ∈ calls, call.Regular)
    (hroom : s.dst.y.toInt + 510 * (calls.map ScreenCall.length).sum < 2 ^ 30) :
    ∃ after, screenCalls font calls s = some after ∧ s.Confined after := by
  have hwithin : s.Within s.dst.w.toInt s.dst.y.toInt :=
    ⟨hfits, hleft, hright, hupper, Int.le_refl _⟩
  generalize s.dst.y.toInt = bound at hwithin hroom
  clear hleft hright hupper
  induction calls generalizing s bound with
  | nil => exact ⟨s, rfl, .of_mem rfl rfl⟩
  | cons call calls ih =>
      rw [List.map_cons, List.sum_cons, Int.natCast_add] at hroom
      obtain ⟨hcall, hrest⟩ := List.forall_mem_cons.mp hcalls
      obtain ⟨between, hrun, hconfined, hnext⟩ :=
        call_confined hwithin hcells hcall (by omega)
      obtain ⟨-, hw, hh, -⟩ := frame_eq_iff.mp hconfined.frame
      rw [← hw] at hnext
      obtain ⟨after, hafter, hconfined'⟩ := ih hnext.fits
        ⟨hcells.width, hcells.height, by rw [hw]; exact hcells.fits_width,
          by rw [hh]; exact hcells.fits_height⟩ hrest _ hnext (by omega)
      refine ⟨after, ?_, hconfined.trans hconfined'⟩
      rw [screenCalls, hrun]
      exact hafter

/-- The small screen has cells. -/
theorem letter_cells : HasCells letterFont blankScreen.dst :=
  ⟨by decide, by decide, by decide, by decide⟩

/-- Some calls of the kernel, on the empty screen. -/
theorem kernel_calls_confined :
    ∃ after, screenCalls letterFont
        [.setColor 0 0xffffffff, .puts [chr 'A', chr 'A', 0], .putln [chr 'A', 0],
          .putsAt (-4) 0 [chr 'A', 0], .putsx 0xffffffff 0x00dd0907 [[chr 'A', 0], [0x0a, 0]], .cls]
        blankScreen = some after ∧ blankScreen.Confined after := by
  refine screen_calls_confined screen_fits_1024 letter_cells (by decide) (by decide) (by decide)
    ?_ (by decide)
  simp only [List.forall_mem_cons, List.not_mem_nil, false_imp_iff, implies_true, and_true]
  refine ⟨⟨by decide, ?_⟩, ⟨by decide, ?_⟩, ⟨by decide, ?_⟩, ⟨by decide, ?_⟩, ⟨by decide, ?_⟩,
    ⟨by decide, ?_⟩⟩
  all_goals
    intro x y text hcall
    cases hcall
  decide

end SiStultum
