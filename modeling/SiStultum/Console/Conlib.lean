import SiStultum.Formatter.Strings
import SiStultum.Library.ByteMemory

/-!
# The console

Text on the framebuffer, from `conlib.c` and `conlib.h`, over the renderer `ssfn_putc` of `ssfn.c`.
The renderer looks a character up in the font, draws its glyph at the cursor and moves the cursor.
A `Console` remembers which glyph was drawn where; the pixels of a glyph are in `Console.Glyphs`,
and `Console.Screen` joins the two.
-/

namespace SiStultum

/-! ## The renderer -/

/-- An inflated bitmap font: its bytes, by their distance from `ssfn_src`. -/
structure SsfnFont where
  byte : Nat → BitVec 8

namespace SsfnFont

variable (font : SsfnFont)

/-- `ssfn_src->width`, the width of a cell. -/
def width : BitVec 8 :=
  font.byte 10

/-- `ssfn_src->height`, the height of a line. -/
def height : BitVec 8 :=
  font.byte 11

/-- `ssfn_src->characters_offs`. -/
def charactersOffs : BitVec 32 :=
  font.byte 19 ++ font.byte 18 ++ font.byte 17 ++ font.byte 16

/-- The font begins with the magic bytes `SFN2`. -/
def hasMagic : Bool :=
  font.byte 0 == chr 'S' && font.byte 1 == chr 'F' && font.byte 2 == chr 'N' &&
    font.byte 3 == chr '2'

/-- The loop of `ssfn_putc` over the characters table, in at most `fuel` rounds: where the entry of
the character is. An entry at `ptr` is for the code point `i`, or skips some code points. -/
def findChar (unicode : BitVec 32) : (fuel ptr i : Nat) → Option Nat
  | 0, _, _ => none
  | fuel + 1, ptr, i =>
      if i < 0x110000 then
        if font.byte ptr = 0xff then findChar unicode fuel (ptr + 1) (i + 65535 + 1)
        else if font.byte ptr &&& 0xc0 = 0xc0 then
          findChar unicode fuel (ptr + 2)
            (i + ((font.byte ptr &&& 0x3f) ++ font.byte (ptr + 1)).toNat + 1)
        else if font.byte ptr &&& 0xc0 = 0x80 then
          findChar unicode fuel (ptr + 1) (i + (font.byte ptr &&& 0x3f).toNat + 1)
        else if i = unicode.toNat then some ptr
        else
          findChar unicode fuel
            (ptr + 6 + (font.byte (ptr + 1)).toNat * if font.byte ptr &&& 0x40 = 0 then 5 else 6)
            (i + 1)
      else none

/-- The entry of a character: the code point grows in every round, so that there are no more rounds
than code points. -/
def charEntry (unicode : BitVec 32) : Option Nat :=
  font.findChar unicode 0x110000 font.charactersOffs.toNat 0

end SsfnFont

/-- The destination framebuffer, `ssfn_buf_t`. -/
structure SsfnBuf where
  ptr : BitVec 64
  /-- The width, an `int`. -/
  w : BitVec 32
  /-- The height, an `int`. -/
  h : BitVec 32
  /-- The pitch, a `uint16_t`. -/
  p : BitVec 16
  /-- The cursor, two `int`s. -/
  x : BitVec 32
  y : BitVec 32
  fg : BitVec 32
  bg : BitVec 32
  deriving DecidableEq, Repr

/-- A glyph on the screen. -/
structure DrawnGlyph where
  unicode : BitVec 32
  x : BitVec 32
  y : BitVec 32
  deriving DecidableEq, Repr

/-- `ssfn_dst`, with the glyphs drawn so far, the newest last. -/
structure Console where
  dst : SsfnBuf
  drawn : List DrawnGlyph
  deriving DecidableEq, Repr

def ssfnOk : BitVec 32 := 0

def ssfnErrInvinp : BitVec 32 := -4

def ssfnErrNoglyph : BitVec 32 := -7

/-- `ssfn_putc`: the glyph is drawn at the cursor, which moves by the advance of the glyph. -/
def ssfnPutc (font : SsfnFont) (unicode : BitVec 32) (con : Console) : BitVec 32 × Console :=
  if !font.hasMagic || con.dst.ptr == 0 || con.dst.p == 0 then (ssfnErrInvinp, con)
  else
    match font.charEntry unicode with
    | none => (ssfnErrNoglyph, con)
    | some entry =>
        (ssfnOk,
          { dst :=
              { con.dst with
                x := con.dst.x + (font.byte (entry + 4)).setWidth 32
                y := con.dst.y + (font.byte (entry + 5)).setWidth 32 }
            drawn := con.drawn ++ [⟨unicode, con.dst.x, con.dst.y⟩] })

/-! ## `conlib.h` -/

/-- `conlib_init`: `ssfn_dst` for a framebuffer. -/
def conlibInit (fbbase : BitVec 64) (w h p : BitVec 32) : SsfnBuf where
  ptr := fbbase
  w := w
  h := h
  p := p.setWidth 16
  x := 0
  y := 0
  fg := 0xffffffff
  bg := 0

/-- `set_bg`. -/
def setBg (color : BitVec 32) (dst : SsfnBuf) : SsfnBuf :=
  { dst with bg := color }

/-! ## `conlib.c` -/

/-- The cursor goes to the beginning of the next line. -/
def newLine (font : SsfnFont) (con : Console) : Console :=
  { con with
    dst := { con.dst with y := con.dst.y + font.height.setWidth 32, x := 0 } }

/-- What `putc` does with the character, before it looks at the end of the line. -/
def putChar (font : SsfnFont) (ch : BitVec 32) (con : Console) : Console :=
  if ch = 0x0a then newLine font con
  else if ch = 0x0d then { con with dst := { con.dst with x := 0 } }
  else if ch = 0x09 then con
  else (ssfnPutc font ch con).2

/-- `putc`, which returns its argument. -/
def putc (font : SsfnFont) (ch : BitVec 32) (con : Console) : Console :=
  if (putChar font ch con).dst.w.sle (putChar font ch con).dst.x then
    newLine font (putChar font ch con)
  else putChar font ch con

/-- `puts`, on the readable characters from the pointer on. -/
def puts (font : SsfnFont) : List Char8 → Console → Except Fault Console
  | [], _ => .error .outOfBounds
  | c :: rest, con =>
      if c = 0 then .ok con else puts font rest (putc font (c.signExtend 32) con)

/-- The loop of `cls`: `len` pixels from `ptr` on. -/
def clsLoop (bg : BitVec 32) : (len : Nat) → BitVec 64 → ByteMemory → ByteMemory
  | 0, _, mem => mem
  | len + 1, ptr, mem => clsLoop bg len (ptr + 4) (mem.write ptr 4 bg)

/-- `cls`. -/
def cls (dst : SsfnBuf) (mem : ByteMemory) : ByteMemory :=
  clsLoop dst.bg (dst.w * dst.h).toNat dst.ptr mem

/-! ## A call that prints -/

inductive PrintCall where
  /-- `putc(ch)` -/
  | char (ch : BitVec 32)
  /-- `puts(s)` -/
  | string (s : List Char8)
  deriving DecidableEq, Repr

/-- The characters that the call prints. -/
def PrintCall.text : PrintCall → List (BitVec 32)
  | .char ch => [ch]
  | .string s => (cString s).map (·.signExtend 32)

def PrintCall.run (font : SsfnFont) : PrintCall → Console → Except Fault Console
  | .char ch, con => .ok (putc font ch con)
  | .string s, con => puts font s con

/-- One call after the other. -/
def printCalls (font : SsfnFont) : List PrintCall → Console → Except Fault Console
  | [], con => .ok con
  | call :: calls, con => do
      let next ← call.run font con
      printCalls font calls next

/-- Print one character after the other. -/
def putcAll (font : SsfnFont) (text : List (BitVec 32)) (con : Console) : Console :=
  text.foldl (fun con ch => putc font ch con) con

variable {font : SsfnFont}

/-- The search does not need a round for every code point that is left. -/
theorem find_char_succ (unicode : BitVec 32) {fuel ptr i : Nat} (h : 0x110000 ≤ i + fuel) :
    font.findChar unicode (fuel + 1) ptr i = font.findChar unicode fuel ptr i := by
  induction fuel generalizing ptr i with
  | zero =>
      show (if i < 0x110000 then _ else none) = none
      rw [if_neg (by omega)]
  | succ fuel ih =>
      rw [SsfnFont.findChar]
      conv_rhs => rw [SsfnFont.findChar]
      -- every round that goes on has moved the code point
      split
      · split
        · exact ih (by omega)
        · split
          · exact ih (by omega)
          · split
            · exact ih (by omega)
            · split
              · rfl
              · exact ih (by omega)
      · rfl

/-- The rounds suffice: with more of them the search finds the same entry. -/
theorem char_entry_eq (unicode : BitVec 32) (more : Nat) :
    font.findChar unicode (0x110000 + more) font.charactersOffs.toNat 0 =
      font.charEntry unicode := by
  induction more with
  | zero => rfl
  | succ more ih => rw [← Nat.add_assoc, find_char_succ unicode (by omega), ih]

/-- `puts` prints a string character by character. -/
theorem puts_eq_putc_all {s : List Char8} (hs : 0 ∈ s) (con : Console) :
    puts font s con = .ok (putcAll font ((cString s).map (·.signExtend 32)) con) := by
  induction s generalizing con with
  | nil => cases hs
  | cons c rest ih =>
      rw [puts, cString, List.takeWhile_cons]
      by_cases hc : c = 0
      · rw [if_pos hc, if_neg (by simpa using hc)]
        rfl
      · have hrest : 0 ∈ rest := (List.mem_cons.mp hs).resolve_left (Ne.symm hc)
        rw [if_neg hc, if_pos (by simpa using hc), ih hrest]
        rfl

/-- A sequence of calls prints its text character by character. -/
theorem print_calls_eq_putc_all {calls : List PrintCall}
    (hcalls : ∀ s, .string s ∈ calls → 0 ∈ s) (con : Console) :
    printCalls font calls con = .ok (putcAll font (calls.flatMap PrintCall.text) con) := by
  induction calls generalizing con with
  | nil => rfl
  | cons call calls ih =>
      have hrun : call.run font con = .ok (putcAll font call.text con) := by
        cases call with
        | char ch => rfl
        | string s => exact puts_eq_putc_all (hcalls s List.mem_cons_self) con
      rw [printCalls, hrun, ok_bind, ih fun s hs => hcalls s (List.mem_cons_of_mem _ hs),
        List.flatMap_cons, putcAll, putcAll, putcAll, List.foldl_append]

end SiStultum
