import Mathlib.Logic.Function.Iterate
import SiStultum.Console.Conlib
import SiStultum.Library.Raster

/-!
# Text on the character grid

`puts_at` divides the screen into `w / width` columns, while `putc` starts a new line when the
cursor has reached the width. `cursor_refines` relates the cursor of `putc` to the cells that
`Raster.flowed` puts next to each other, and `text_on_grid_iff` says when the two ways of
counting columns agree.
-/

namespace SiStultum

open Raster

/-! ## What is printed, and where it should be -/

/-- The renderer has a font and a framebuffer. -/
structure Console.Ready (font : SsfnFont) (con : Console) : Prop where
  magic : font.hasMagic = true
  ptr : con.dst.ptr ≠ 0
  p : con.dst.p ≠ 0

/-- The character has a glyph, and drawing it moves the cursor one cell to the right. -/
def HasCell (font : SsfnFont) (ch : BitVec 32) : Prop :=
  ∃ entry, font.charEntry ch = some entry ∧ font.byte (entry + 4) = font.width ∧
    font.byte (entry + 5) = 0

/-- The calls print drawable characters, and none of those that `putc` treats itself. -/
structure PlainText (font : SsfnFont) (calls : List PrintCall) : Prop where
  terminated : ∀ s, .string s ∈ calls → 0 ∈ s
  has_cell : ∀ ch ∈ calls.flatMap PrintCall.text, HasCell font ch
  no_control : ∀ ch ∈ calls.flatMap PrintCall.text, ch ≠ 0x0a ∧ ch ≠ 0x0d ∧ ch ≠ 0x09

/-- The columns of the screen. `puts_at` counts them so when the width is in the range of `int`. -/
def columns (font : SsfnFont) (dst : SsfnBuf) : Nat :=
  dst.w.toNat / font.width.toNat

/-- The place is that of the character with number `k` of a text that begins at the left end of the
line `dst.y`, and the character lies inside its line. -/
structure OnGrid (font : SsfnFont) (dst : SsfnBuf) (k : Nat) (place : BitVec 32 × BitVec 32) :
    Prop where
  x : place.1.toInt = (k % columns font dst * font.width.toNat : Nat)
  y : place.2.toInt = dst.y.toInt + (k / columns font dst * font.height.toNat : Nat)
  inside : place.1.toInt + font.width.toNat ≤ dst.w.toNat

/-- The calls succeed, and draw their text on the grid. -/
def TextOnGrid (font : SsfnFont) (calls : List PrintCall) (con : Console) : Prop :=
  ∃ after glyphs, printCalls font calls con = .ok after ∧ after.drawn = con.drawn ++ glyphs ∧
    glyphs.map DrawnGlyph.unicode = calls.flatMap PrintCall.text ∧
    ∀ k glyph, glyphs[k]? = some glyph → OnGrid font con.dst k (glyph.x, glyph.y)

/-! ## The cursor -/

variable {font : SsfnFont} {con : Console}

/-- How the cursor moves when a character is drawn. -/
def nextCursor (font : SsfnFont) (w : BitVec 32) (place : BitVec 32 × BitVec 32) :
    BitVec 32 × BitVec 32 :=
  if w.sle (place.1 + font.width.setWidth 32) then (0, place.2 + font.height.setWidth 32)
  else (place.1 + font.width.setWidth 32, place.2)

/-- The console with the cursor somewhere else, after some glyphs. -/
def Console.drew (con : Console) (place : BitVec 32 × BitVec 32) (glyphs : List DrawnGlyph) :
    Console where
  dst := { con.dst with x := place.1, y := place.2 }
  drawn := con.drawn ++ glyphs

/-- A drawable character is drawn at the cursor. -/
theorem putc_has_cell (hready : con.Ready font) {ch : BitVec 32} (hcell : HasCell font ch)
    (hplain : ch ≠ 0x0a ∧ ch ≠ 0x0d ∧ ch ≠ 0x09) :
    putc font ch con = con.drew (nextCursor font con.dst.w (con.dst.x, con.dst.y))
      [⟨ch, con.dst.x, con.dst.y⟩] := by
  obtain ⟨entry, hentry, hadvance, hstay⟩ := hcell
  obtain ⟨hlf, hcr, htab⟩ := hplain
  have hready' : (!font.hasMagic || con.dst.ptr == 0 || con.dst.p == 0) = false := by
    simpa [hready.magic] using And.intro hready.ptr hready.p
  have hmoved : putChar font ch con =
      con.drew (con.dst.x + font.width.setWidth 32, con.dst.y) [⟨ch, con.dst.x, con.dst.y⟩] := by
    rw [putChar, if_neg hlf, if_neg hcr, if_neg htab, ssfnPutc, hready', if_neg Bool.false_ne_true,
      hentry]
    dsimp only
    rw [hadvance, hstay]
    simp [Console.drew]
  rw [putc, hmoved, nextCursor]
  show (if con.dst.w.sle (con.dst.x + font.width.setWidth 32) then _ else _) = _
  split
  · rfl
  · rfl

/-- A text of such characters is drawn where the cursor goes. -/
theorem putc_all_cells {text : List (BitVec 32)} (hready : con.Ready font)
    (hcell : ∀ ch ∈ text, HasCell font ch)
    (hplain : ∀ ch ∈ text, ch ≠ 0x0a ∧ ch ≠ 0x0d ∧ ch ≠ 0x09) :
    putcAll font text con =
      con.drew ((nextCursor font con.dst.w)^[text.length] (con.dst.x, con.dst.y))
        (text.mapIdx fun k ch =>
          ⟨ch, ((nextCursor font con.dst.w)^[k] (con.dst.x, con.dst.y)).1,
            ((nextCursor font con.dst.w)^[k] (con.dst.x, con.dst.y)).2⟩) := by
  induction text generalizing con with
  | nil => simp [putcAll, Console.drew]
  | cons ch text ih =>
      obtain ⟨hcell, hcells⟩ := List.forall_mem_cons.mp hcell
      obtain ⟨hplain, hplains⟩ := List.forall_mem_cons.mp hplain
      have hnext : (con.drew (nextCursor font con.dst.w (con.dst.x, con.dst.y))
          [⟨ch, con.dst.x, con.dst.y⟩]).Ready font :=
        ⟨hready.magic, hready.ptr, hready.p⟩
      rw [putcAll, List.foldl_cons, putc_has_cell hready hcell hplain, ← putcAll,
        ih hnext hcells hplains, List.mapIdx_cons]
      simp [Console.drew]

/-- While the right end of every cell is an `int`, the cursor goes from cell to cell. -/
theorem cursor_refines (font : SsfnFont) {w : BitVec 32} (y : BitVec 32)
    (hw : w.toNat < 2 ^ 31) {k : Nat}
    (hfits : ∀ j < k,
      (flowed w.toNat font.width.toNat j).1 + font.width.toNat < 2 ^ 31) :
    ((nextCursor font w)^[k] (0, y)).1.toNat = (flowed w.toNat font.width.toNat k).1 ∧
      ((nextCursor font w)^[k] (0, y)).2 =
        y + BitVec.ofNat 32 ((flowed w.toNat font.width.toNat k).2 * font.height.toNat) := by
  induction k with
  | zero => simp [flowed]
  | succ k ih =>
      obtain ⟨hx, hy⟩ := ih fun j hj => hfits j (by omega)
      have hfit := hfits k (Nat.lt_succ_self k)
      rw [Function.iterate_succ_apply', flowed, flow]
      generalize (nextCursor font w)^[k] (0, y) = place at hx hy ⊢
      rw [← hx] at hfit ⊢
      have hsum : (place.1 + font.width.setWidth 32).toNat =
          place.1.toNat + font.width.toNat := by
        have hwidth := font.width.isLt
        rw [BitVec.toNat_add, BitVec.toNat_setWidth]
        omega
      have hwrap : w.sle (place.1 + font.width.setWidth 32) = true ↔
          w.toNat ≤ place.1.toNat + font.width.toNat := by
        rw [BitVec.sle_iff_toInt_le, BitVec.toInt_eq_toNat_of_lt (by omega),
          BitVec.toInt_eq_toNat_of_lt (by omega), hsum]
        omega
      rw [nextCursor]
      by_cases hend : w.toNat ≤ place.1.toNat + font.width.toNat
      · rw [if_pos (hwrap.mpr hend), if_pos hend]
        refine ⟨rfl, ?_⟩
        show place.2 + font.height.setWidth 32 = _
        rw [hy, Nat.succ_mul, BitVec.ofNat_add, BitVec.ofNat_toNat, BitVec.add_assoc]
      · rw [if_neg (mt hwrap.mp hend), if_neg hend]
        exact ⟨hsum, hy⟩

/-- Adding a number of pixels to a row gives the exact sum unless that is too large for an `int`. -/
theorem row_add_iff (y : BitVec 32) (n : Nat) :
    (y + BitVec.ofNat 32 n).toInt = y.toInt + n ↔ y.toInt + n < 2 ^ 31 := by
  constructor
  · intro heq
    rw [← heq]
    exact BitVec.toInt_lt
  · intro hlt
    have hlow := BitVec.le_toInt y
    rw [BitVec.toInt_add, BitVec.toInt_ofNat', Int.add_bmod_bmod]
    apply Int.bmod_eq_of_le <;> omega

/-! ## The cursor and the grid -/

/-- Where the cursor is after `k` characters from the left end of the line. -/
def cursorAfter (font : SsfnFont) (dst : SsfnBuf) (k : Nat) : BitVec 32 × BitVec 32 :=
  (nextCursor font dst.w)^[k] (0, dst.y)

variable {dst : SsfnBuf} {k : Nat}

/-- A cursor in the right column is on the grid unless its line is too far down for an `int`. -/
theorem on_grid_iff (hcell : 0 < font.width.toNat) (hw : font.width.toNat ≤ dst.w.toNat)
    (hint : dst.w.toNat < 2 ^ 31) {place : BitVec 32 × BitVec 32}
    (hx : place.1.toNat = (gridPlace (columns font dst) font.width.toNat k).1)
    (hy : place.2 = dst.y + BitVec.ofNat 32 (k / columns font dst * font.height.toNat)) :
    OnGrid font dst k place ↔
      dst.y.toInt + (k / columns font dst * font.height.toNat : Nat) < 2 ^ 31 := by
  have hinside : (gridPlace (columns font dst) font.width.toNat k).1 + font.width.toNat ≤
      dst.w.toNat :=
    grid_place_inside hcell hw k
  have hcolumn : place.1.toInt = (gridPlace (columns font dst) font.width.toNat k).1 := by
    rw [BitVec.toInt_eq_toNat_of_lt (by omega), hx]
  rw [← row_add_iff, ← hy]
  constructor
  · exact fun h => h.y
  · intro hrow
    exact ⟨hcolumn, hrow, by omega⟩

/-- The characters that begin inside the first line are drawn next to each other. -/
theorem cursor_first_line (hint : dst.w.toNat < 2 ^ 31) (hk : k * font.width.toNat < dst.w.toNat) :
    (cursorAfter font dst k).1.toNat = k * font.width.toNat ∧
      (cursorAfter font dst k).2 = dst.y := by
  have hflowed : ∀ j ≤ k, flowed dst.w.toNat font.width.toNat j = (j * font.width.toNat, 0) := by
    intro j hj
    have hle : j * font.width.toNat ≤ k * font.width.toNat := Nat.mul_le_mul_right _ hj
    exact flowed_first_line (by omega)
  obtain ⟨hx, hy⟩ := cursor_refines font dst.y hint (k := k) fun j hj => by
    have hle : (j + 1) * font.width.toNat ≤ k * font.width.toNat := Nat.mul_le_mul_right _ hj
    rw [hflowed j (Nat.le_of_lt hj)]
    rw [Nat.succ_mul] at hle
    show j * _ + _ < _
    omega
  rw [hflowed k (Nat.le_refl k)] at hx hy
  refine ⟨hx, ?_⟩
  rw [cursorAfter, hy, Nat.zero_mul, BitVec.add_zero]

/-- The first line of the text is on the grid. -/
theorem first_line_on_grid (hcell : 0 < font.width.toNat) (hw : font.width.toNat ≤ dst.w.toNat)
    (hint : dst.w.toNat < 2 ^ 31) (hk : k < columns font dst) :
    OnGrid font dst k (cursorAfter font dst k) := by
  have hbegin : k * font.width.toNat < dst.w.toNat := by
    calc k * font.width.toNat < columns font dst * font.width.toNat :=
          Nat.mul_lt_mul_of_pos_right hk hcell
      _ ≤ dst.w.toNat := Nat.div_mul_le_self _ _
  obtain ⟨hx, hy⟩ := cursor_first_line hint hbegin
  have hline : k / columns font dst = 0 := Nat.div_eq_of_lt hk
  refine (on_grid_iff hcell hw hint ?_ ?_).mpr ?_
  · rw [hx, gridPlace, Nat.mod_eq_of_lt hk]
  · rw [hy, hline, Nat.zero_mul, BitVec.add_zero]
  · have hrow : dst.y.toInt < 2 ^ 31 := BitVec.toInt_lt
    rw [hline, Nat.zero_mul]
    omega

/-- When the cells fill the line, the text stays on the grid as long as the line is an `int`. -/
theorem full_line_on_grid_iff (hcell : 0 < font.width.toNat)
    (hw : font.width.toNat ≤ dst.w.toNat) (hint : dst.w.toNat < 2 ^ 31)
    (hfull : font.width.toNat ∣ dst.w.toNat) :
    OnGrid font dst k (cursorAfter font dst k) ↔
      dst.y.toInt + (k / columns font dst * font.height.toNat : Nat) < 2 ^ 31 := by
  have hwidth : columns font dst * font.width.toNat = dst.w.toNat := Nat.div_mul_cancel hfull
  have hflowed : ∀ j, flowed dst.w.toNat font.width.toNat j =
      gridPlace (columns font dst) font.width.toNat j := by
    intro j
    rw [← hwidth]
    exact flowed_of_dvd (Nat.div_pos hw hcell) hcell j
  obtain ⟨hx, hy⟩ := cursor_refines font dst.y hint (k := k) fun j _ => by
    have hinside := grid_place_inside hcell hw j
    rw [hflowed]
    exact Nat.lt_of_le_of_lt hinside hint
  rw [hflowed] at hx hy
  exact on_grid_iff hcell hw hint hx hy

/-- Otherwise the first character that should be on the second line is drawn over the end of the
first. -/
theorem past_line_not_on_grid (hcell : 0 < font.width.toNat)
    (hw : font.width.toNat ≤ dst.w.toNat) (hint : dst.w.toNat < 2 ^ 31)
    (hrest : ¬ font.width.toNat ∣ dst.w.toNat) :
    ¬ OnGrid font dst (columns font dst) (cursorAfter font dst (columns font dst)) := by
  intro h
  have hbegin : columns font dst * font.width.toNat < dst.w.toNat := full_cells_lt hrest
  obtain ⟨hx, -⟩ := cursor_first_line hint hbegin
  have hinside := h.inside
  rw [BitVec.toInt_eq_toNat_of_lt (by omega), hx] at hinside
  -- one more cell would not fit
  have hover : dst.w.toNat < columns font dst * font.width.toNat + font.width.toNat := by
    rw [Nat.mul_comm]
    exact Nat.lt_mul_div_self_add hcell
  omega

/-- When the width is not an `int`, every character is drawn at the left end. -/
theorem huge_width_not_on_grid (hcell : 0 < font.width.toNat) (hhuge : 2 ^ 31 ≤ dst.w.toNat) :
    ¬ OnGrid font dst 1 (cursorAfter font dst 1) := by
  intro h
  have hnegative : dst.w.toInt < 0 := BitVec.toInt_neg_iff.mpr (by omega)
  have hwidth := font.width.isLt
  have hstep : (font.width.setWidth 32).toNat = font.width.toNat := by
    rw [BitVec.toNat_setWidth]
    omega
  have hwrap : dst.w.sle (0#32 + font.width.setWidth 32) = true := by
    have hpositive : (font.width.setWidth 32).toInt = (font.width.setWidth 32).toNat :=
      BitVec.toInt_eq_toNat_of_lt (by omega)
    rw [BitVec.sle_iff_toInt_le, BitVec.zero_add, hpositive]
    omega
  have hsecond : 1 % columns font dst = 1 := by
    have htwo : 2 ≤ columns font dst := (Nat.le_div_iff_mul_le hcell).mpr (by omega)
    exact Nat.mod_eq_of_lt htwo
  have hcursor : cursorAfter font dst 1 = (0, dst.y + font.height.setWidth 32) := if_pos hwrap
  have hx := h.x
  rw [hsecond, hcursor] at hx
  have hzero : (0 : Int) = (1 * font.width.toNat : Nat) := hx
  omega

/-! ## Texts -/

/-- The text is on the grid when the cursor is there before every character. -/
theorem text_on_grid_iff_cursor {calls : List PrintCall} (hready : con.Ready font)
    (htext : PlainText font calls) (hx : con.dst.x = 0) :
    TextOnGrid font calls con ↔
      ∀ k < (calls.flatMap PrintCall.text).length,
        OnGrid font con.dst k (cursorAfter font con.dst k) := by
  have hrun : printCalls font calls con = .ok (con.drew
      (cursorAfter font con.dst (calls.flatMap PrintCall.text).length)
      ((calls.flatMap PrintCall.text).mapIdx fun k ch =>
        ⟨ch, (cursorAfter font con.dst k).1, (cursorAfter font con.dst k).2⟩)) := by
    rw [print_calls_eq_putc_all htext.terminated,
      putc_all_cells hready htext.has_cell htext.no_control, hx]
    rfl
  rw [TextOnGrid, hrun]
  generalize calls.flatMap PrintCall.text = text
  constructor
  · rintro ⟨after, glyphs, hafter, hdrawn, -, hgrid⟩ k hk
    obtain rfl := Except.ok.inj hafter
    obtain rfl := List.append_cancel_left hdrawn
    refine hgrid k ⟨text[k], (cursorAfter font con.dst k).1, (cursorAfter font con.dst k).2⟩ ?_
    rw [List.getElem?_mapIdx, List.getElem?_eq_getElem hk]
    rfl
  · intro hgrid
    refine ⟨_, _, rfl, rfl, ?_, ?_⟩
    · refine List.ext_getElem? fun k => ?_
      rw [List.getElem?_map, List.getElem?_mapIdx, Option.map_map]
      exact Option.map_id'
    · intro k glyph hglyph
      rw [List.getElem?_mapIdx, Option.map_eq_some_iff] at hglyph
      obtain ⟨ch, hch, rfl⟩ := hglyph
      exact hgrid k (List.getElem?_eq_some_iff.mp hch).1

/-- A text of drawable characters is printed on the grid exactly if it is a single character, or
it ends on its first line, or the cells fill the line and the last line of the text is in the range
of `int`. -/
theorem text_on_grid_iff {font : SsfnFont} {calls : List PrintCall} {con : Console}
    (hready : con.Ready font) (htext : PlainText font calls) (hcell : 0 < font.width.toNat)
    (hw : font.width.toNat ≤ con.dst.w.toNat) (hx : con.dst.x = 0) :
    TextOnGrid font calls con ↔
      (calls.flatMap PrintCall.text).length ≤ 1 ∨
        con.dst.w.toNat < 2 ^ 31 ∧
          ((calls.flatMap PrintCall.text).length ≤ columns font con.dst ∨
            font.width.toNat ∣ con.dst.w.toNat ∧
              con.dst.y.toInt + (((calls.flatMap PrintCall.text).length - 1) /
                columns font con.dst * font.height.toNat : Nat) < 2 ^ 31) := by
  rw [text_on_grid_iff_cursor hready htext hx]
  generalize (calls.flatMap PrintCall.text).length = n
  have hcolumns : 0 < columns font con.dst := Nat.div_pos hw hcell
  have hstart : OnGrid font con.dst 0 (cursorAfter font con.dst 0) := by
    constructor
    · show (0 : Int) = _
      simp
    · show con.dst.y.toInt = _
      simp
    · show (0 : Int) + _ ≤ _
      omega
  constructor
  · intro h
    by_cases hone : n ≤ 1
    · exact .inl hone
    by_cases hint : con.dst.w.toNat < 2 ^ 31
    · refine .inr ⟨hint, ?_⟩
      by_cases hline : n ≤ columns font con.dst
      · exact .inl hline
      by_cases hfull : font.width.toNat ∣ con.dst.w.toNat
      · exact .inr ⟨hfull, (full_line_on_grid_iff hcell hw hint hfull).mp (h (n - 1) (by omega))⟩
      · exact absurd (h _ (by omega)) (past_line_not_on_grid hcell hw hint hfull)
    · exact absurd (h 1 (by omega)) (huge_width_not_on_grid hcell (by omega))
  · intro hcondition k hk
    rcases hcondition with hone | ⟨hint, hline | ⟨hfull, hrow⟩⟩
    · obtain rfl : k = 0 := by omega
      exact hstart
    · exact first_line_on_grid hcell hw hint (by omega)
    · refine (full_line_on_grid_iff hcell hw hint hfull).mpr ?_
      have hle : k / columns font con.dst * font.height.toNat ≤
          (n - 1) / columns font con.dst * font.height.toNat :=
        Nat.mul_le_mul_right _ (Nat.div_le_div_right (by omega))
      omega

/-! ## A font with one glyph -/

/-- A font of 8 by 16 pixels whose only glyph is an empty one for the letter A. -/
def boxFont : SsfnFont where
  byte k :=
    [chr 'S', chr 'F', chr 'N', chr '2', 40, 0, 0, 0, 0, 0, 8, 16, 14, 0, 0, 0, 32, 0, 0, 0,
      0, 0, 0, 0, 0, 0, 0, 0, 0, 0, 0, 0, 0xbf, 0x80, 0, 0, 8, 16, 8, 0].getD k 0

/-- The screen after `conlib_init`, with a pitch of `w` pixels. -/
def boxScreen (w h : BitVec 32) : Console where
  dst := conlibInit 0x80000000 w h (w * 4)
  drawn := []

/-- `puts` of the letter A, `n` times. -/
def boxText (n : Nat) : List PrintCall :=
  [.string (List.replicate n (chr 'A') ++ [0])]

/-- The calls print so many boxes. -/
theorem box_text (n : Nat) : (boxText n).flatMap PrintCall.text = List.replicate n 0x41 := by
  have hstring : cString (List.replicate n (chr 'A') ++ [0]) = List.replicate n (chr 'A') := by
    refine c_string_of_start (List.prefix_refl _) fun hmem => ?_
    exact absurd (List.eq_of_mem_replicate hmem) (by decide)
  rw [boxText, List.flatMap_singleton, PrintCall.text, hstring, List.map_replicate]
  rfl

/-- The boxes are plain text. -/
theorem box_text_plain (n : Nat) : PlainText boxFont (boxText n) := by
  constructor
  case terminated =>
    intro s hs
    obtain rfl := PrintCall.string.inj (List.mem_singleton.mp hs)
    simp
  case has_cell =>
    intro ch hch
    rw [box_text] at hch
    obtain rfl := List.eq_of_mem_replicate hch
    exact ⟨34, by decide +kernel, by decide, by decide⟩
  case no_control =>
    intro ch hch
    rw [box_text] at hch
    obtain rfl := List.eq_of_mem_replicate hch
    decide

/-- A screen of 1024 pixels has 128 columns, which two lines of text keep to. -/
theorem box_text_on_grid : TextOnGrid boxFont (boxText 171) (boxScreen 1024 768) := by
  refine (text_on_grid_iff ⟨by decide, by decide, by decide⟩ (box_text_plain 171) (by decide)
    (by decide) rfl).mpr (.inr ⟨by decide, .inr ⟨by decide, ?_⟩⟩)
  rw [box_text, List.length_replicate]
  decide

/-- A screen of 1366 pixels has 170 columns, but the next letter is still drawn on the first line,
at pixel 1360. -/
theorem box_text_off_grid :
    (boxScreen 1366 768).Ready boxFont ∧ PlainText boxFont (boxText 171) ∧
      cursorAfter boxFont (boxScreen 1366 768).dst 170 = (1360, 0) ∧
      ¬ TextOnGrid boxFont (boxText 171) (boxScreen 1366 768) := by
  have hready : (boxScreen 1366 768).Ready boxFont := ⟨by decide, by decide, by decide⟩
  refine ⟨hready, box_text_plain 171, by decide +kernel, fun h => ?_⟩
  rw [text_on_grid_iff_cursor hready (box_text_plain 171) rfl, box_text, List.length_replicate] at h
  exact past_line_not_on_grid (by decide) (by decide) (by decide) (by decide) (h 170 (by decide))

end SiStultum
