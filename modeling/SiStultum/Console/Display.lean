import SiStultum.Console.Screen

/-!
# Text that can be read

On a screen whose width is a whole number of cells, every character of a plain text is shown in its
own cell of the grid: `text_shown` for the text of `puts`, and `puts_at_shown` for that of
`puts_at`.
-/

namespace SiStultum

open ByteMemory Framebuffer Raster

/-- A drawable character whose glyph lies inside its cell. -/
structure Readable (font : SsfnFont) (ink : Ink) (ch : BitVec 32) : Prop where
  has_cell : HasCell font ch
  no_control : ch ≠ 0x0a ∧ ch ≠ 0x0d ∧ ch ≠ 0x09
  inside : ∀ entry column line, font.charEntry ch = some entry →
    (glyphPicture font ink entry column line).isSome →
      column < font.width.toNat ∧ line < font.height.toNat

/-- The renderer has a font, and the lines of the screen are whole numbers of its cells. -/
structure GridScreen (font : SsfnFont) (dst : SsfnBuf) : Prop where
  magic : font.hasMagic = true
  ptr : dst.ptr ≠ 0
  fits : dst.Fits
  cells : HasCells font dst
  whole : font.width.toNat ∣ dst.w.toNat

/-- The colour of a visible pixel. -/
def Screen.pixel (s : Screen) (x y : Nat) : BitVec 32 :=
  SiStultum.pixel s.dst (s.dst.p.setWidth 32) s.mem x y

/-- The text is shown from cell `start` of line `top` on: each of its characters by the picture of
its glyph, in front of what was there, and nothing else has changed. -/
structure Shows (font : SsfnFont) (before after : Screen) (start top : Nat)
    (text : List (BitVec 32)) : Prop where
  frame : after.dst.frame = before.dst.frame
  glyph : ∀ k ch entry column line, text[k]? = some ch → font.charEntry ch = some entry →
    column < font.width.toNat → line < font.height.toNat →
    top + (start + k) / columns font before.dst * font.height.toNat + line < before.dst.h.toNat →
    after.pixel ((start + k) % columns font before.dst * font.width.toNat + column)
        (top + (start + k) / columns font before.dst * font.height.toNat + line) =
      (glyphPicture font before.dst.ink entry column line).getD
        (before.pixel ((start + k) % columns font before.dst * font.width.toNat + column)
          (top + (start + k) / columns font before.dst * font.height.toNat + line))
  others : ∀ x < before.dst.w.toNat, ∀ y < before.dst.h.toNat,
    (∀ k < text.length, ¬ (x / font.width.toNat = (start + k) % columns font before.dst ∧
      top + (start + k) / columns font before.dst * font.height.toNat ≤ y ∧
      y < top + (start + k) / columns font before.dst * font.height.toNat +
        font.height.toNat)) →
    after.pixel x y = before.pixel x y

variable {font : SsfnFont} {s : Screen}

/-- A pixel of the screen is a pixel of its framebuffer. -/
theorem screen_pixel_eq (hfits : s.dst.Fits) (x y : Nat) :
    s.pixel x y = (s.dst.geometry hfits).pixel s.mem x y := by
  have hp := s.dst.p.isLt
  have hpitch : (s.dst.p.setWidth 32).toNat = s.dst.p.toNat := by
    rw [BitVec.toNat_setWidth]
    omega
  rw [Screen.pixel, pixel, hpitch]
  rfl

/-! ## Where the characters are -/

/-- The cursor before character `k`, for a text that begins in cell `start`. -/
theorem cursor_cells (hgrid : GridScreen font s.dst) {start : Nat}
    (hstart : start < columns font s.dst) (hx : s.dst.x.toNat = start * font.width.toNat)
    (k : Nat) :
    ((nextCursor font s.dst.w)^[k] (s.dst.x, s.dst.y)).1.toNat =
        (start + k) % columns font s.dst * font.width.toNat ∧
      ((nextCursor font s.dst.w)^[k] (s.dst.x, s.dst.y)).2 = s.dst.y +
        BitVec.ofNat 32 ((start + k) / columns font s.dst * font.height.toNat) := by
  have hw := width_lt hgrid.fits
  obtain ⟨hint, -⟩ := to_int_of_nonneg (Int.le_of_lt hgrid.fits.width)
  have hwhole : columns font s.dst * font.width.toNat = s.dst.w.toNat :=
    Nat.div_mul_cancel hgrid.whole
  have hcols : 0 < columns font s.dst := Nat.lt_of_le_of_lt (Nat.zero_le _) hstart
  have hbyte := font.width.isLt
  -- the cells of the text of a whole line
  have hplace : ∀ j, flowed s.dst.w.toNat font.width.toNat j =
      gridPlace (columns font s.dst) font.width.toNat j := by
    intro j
    rw [← hwhole]
    exact flowed_of_dvd hcols hgrid.cells.width j
  have hcursor : ∀ j,
      ((nextCursor font s.dst.w)^[j] (0, s.dst.y)).1.toNat =
          j % columns font s.dst * font.width.toNat ∧
        ((nextCursor font s.dst.w)^[j] (0, s.dst.y)).2 = s.dst.y +
          BitVec.ofNat 32 (j / columns font s.dst * font.height.toNat) := by
    intro j
    have hrefines := cursor_refines font (w := s.dst.w) s.dst.y (by omega) (k := j) fun i _ => by
      have hinside : (gridPlace (s.dst.w.toNat / font.width.toNat) font.width.toNat i).1 +
          font.width.toNat ≤ s.dst.w.toNat :=
        grid_place_inside hgrid.cells.width hgrid.cells.fits_width i
      rw [hplace]
      exact Nat.lt_of_le_of_lt hinside (by omega)
    rwa [hplace] at hrefines
  -- the text begins where the cursor is after `start` cells
  have hbegin : (nextCursor font s.dst.w)^[start] (0, s.dst.y) = (s.dst.x, s.dst.y) := by
    obtain ⟨hcolumn, hline⟩ := hcursor start
    rw [Nat.mod_eq_of_lt hstart, ← hx] at hcolumn
    rw [Nat.div_eq_of_lt hstart, Nat.zero_mul, BitVec.add_zero] at hline
    exact Prod.ext (BitVec.eq_of_toNat_eq hcolumn) hline
  rw [← hbegin, ← Function.iterate_add_apply, Nat.add_comm k start]
  exact hcursor (start + k)

/-- The line of character `k` is an `int`. -/
theorem line_to_nat (hupper : 0 ≤ s.dst.y.toInt) {start k length : Nat}
    (hstart : start < columns font s.dst) (hk : k < length)
    (hroom : s.dst.y.toInt + 510 * length < 2 ^ 31) :
    (s.dst.y + BitVec.ofNat 32 ((start + k) / columns font s.dst * font.height.toNat)).toNat =
      s.dst.y.toNat + (start + k) / columns font s.dst * font.height.toNat := by
  obtain ⟨hy, -⟩ := to_int_of_nonneg hupper
  have hheight := font.height.isLt
  have hlines : (start + k) / columns font s.dst < k + 1 := by
    refine Nat.div_lt_of_lt_mul ?_
    have hle : k ≤ columns font s.dst * k := Nat.le_mul_of_pos_left k (by omega)
    rw [Nat.mul_succ]
    omega
  have hdown : (start + k) / columns font s.dst * font.height.toNat ≤ k * 255 :=
    Nat.mul_le_mul (by omega) (by omega)
  rw [BitVec.toNat_add, BitVec.toNat_ofNat]
  omega

/-- Two cells with a pixel in common are the same cell. -/
theorem cell_unique {cell place other x : Nat} (hplace : place * cell ≤ x)
    (hplace' : x < place * cell + cell) (hother : other * cell ≤ x)
    (hother' : x < other * cell + cell) : place = other := by
  have hfirst : x / cell = place :=
    Nat.div_eq_of_lt_le hplace (by rw [Nat.succ_mul]; exact hplace')
  have hsecond : x / cell = other :=
    Nat.div_eq_of_lt_le hother (by rw [Nat.succ_mul]; exact hother')
  exact hfirst.symm.trans hsecond

/-! ## The pictures of a text -/

/-- The picture of character `k`, in its cell. -/
def cellPicture (font : SsfnFont) (dst : SsfnBuf) (start : Nat) (k : Nat) (ch : BitVec 32) :
    Picture :=
  match font.charEntry ch with
  | some entry =>
      (glyphPicture font dst.ink entry).shift ((start + k) % columns font dst * font.width.toNat)
        (dst.y.toNat + (start + k) / columns font dst * font.height.toNat)
  | none => Picture.blank

/-- A plain text paints its characters into their cells. -/
theorem text_cells (hgrid : GridScreen font s.dst) {start : Nat}
    (hstart : start < columns font s.dst) (hx : s.dst.x.toNat = start * font.width.toNat)
    (hupper : 0 ≤ s.dst.y.toInt) {text : List (BitVec 32)}
    (htext : ∀ ch ∈ text, Readable font s.dst.ink ch)
    (hroom : s.dst.y.toInt + 510 * text.length < 2 ^ 31) :
    (s.putcAll font text).mem = (s.dst.geometry hgrid.fits).paint
      (Picture.pile (text.mapIdx (cellPicture font s.dst start))) s.mem := by
  have hw := width_lt hgrid.fits
  obtain ⟨hint, -⟩ := to_int_of_nonneg (Int.le_of_lt hgrid.fits.width)
  have hwhole : columns font s.dst * font.width.toNat = s.dst.w.toNat :=
    Nat.div_mul_cancel hgrid.whole
  have hlast : s.dst.x.toNat < s.dst.w.toNat := by
    rw [hx, ← hwhole]
    exact Nat.mul_lt_mul_of_pos_right hstart hgrid.cells.width
  have hleft : s.dst.x.toInt = s.dst.x.toNat := BitVec.toInt_eq_toNat_of_lt (by omega)
  have hpitch : s.dst.p ≠ 0 := by
    intro hzero
    have hfits := hgrid.fits.pitch
    rw [hzero] at hfits
    have hzero' : (0 : BitVec 16).toNat = 0 := rfl
    omega
  obtain ⟨-, hmem⟩ := text_painted font text hgrid.fits (by omega) (by omega) hupper hroom
  have hready : Console.Ready font ⟨s.dst, []⟩ := ⟨hgrid.magic, hgrid.ptr, hpitch⟩
  have hdrawn := putc_all_cells hready (fun ch hch => (htext ch hch).has_cell)
    fun ch hch => (htext ch hch).no_control
  rw [hmem, hdrawn]
  congr 2
  refine List.ext_getElem? fun k => ?_
  rw [Console.drew, List.nil_append, List.getElem?_map, List.getElem?_mapIdx,
    List.getElem?_mapIdx]
  by_cases hk : k < text.length
  · obtain ⟨hcolumn, hline⟩ := cursor_cells hgrid hstart hx k
    rw [List.getElem?_eq_getElem hk, Option.map_some, Option.map_some, Option.map_some,
      DrawnGlyph.picture, cellPicture]
    dsimp only
    rewrite [hcolumn, hline, line_to_nat hupper hstart hk hroom]
    rfl
  · simp only [List.getElem?_eq_none (Nat.le_of_not_lt hk), Option.map_none]

/-- A character shows nothing outside its cell. -/
theorem cell_picture_inside {start k : Nat} {ch : BitVec 32} (hch : Readable font s.dst.ink ch)
    {x y : Nat} (hsome : (cellPicture font s.dst start k ch x y).isSome) :
    (start + k) % columns font s.dst * font.width.toNat ≤ x ∧
      x < (start + k) % columns font s.dst * font.width.toNat + font.width.toNat ∧
      s.dst.y.toNat + (start + k) / columns font s.dst * font.height.toNat ≤ y ∧
      y < s.dst.y.toNat + (start + k) / columns font s.dst * font.height.toNat +
        font.height.toNat := by
  obtain ⟨entry, hentry, -⟩ := hch.has_cell
  rw [cellPicture, hentry] at hsome
  dsimp only [Picture.shift] at hsome
  split at hsome
  · obtain ⟨hcolumn, hline⟩ := hch.inside entry _ _ hentry hsome
    omega
  · cases hsome

/-- A plain text that begins in a cell of the line of the cursor is shown from there on. -/
theorem text_shown (hgrid : GridScreen font s.dst) {start : Nat}
    (hstart : start < columns font s.dst) (hx : s.dst.x.toNat = start * font.width.toNat)
    (hupper : 0 ≤ s.dst.y.toInt) {text : List (BitVec 32)}
    (htext : ∀ ch ∈ text, Readable font s.dst.ink ch)
    (hroom : s.dst.y.toInt + 510 * text.length < 2 ^ 31) :
    Shows font s (s.putcAll font text) start s.dst.y.toNat text := by
  have hframe := (putc_all_frame font text s).1
  have hfits' := hgrid.fits.of_frame hframe
  have hmem := text_cells hgrid hstart hx hupper htext hroom
  have hpixel : ∀ x < s.dst.w.toNat, ∀ y < s.dst.h.toNat,
      (s.putcAll font text).pixel x y =
        (Picture.pile (text.mapIdx (cellPicture font s.dst start)) x y).getD (s.pixel x y) := by
    intro x hxw y hyh
    rw [screen_pixel_eq hfits', screen_pixel_eq hgrid.fits,
      geometry_of_frame hframe hgrid.fits, hmem]
    exact pixel_paint (g := s.dst.geometry hgrid.fits) hxw hyh _ _
  have hcols : 0 < columns font s.dst := by omega
  have hwhole : columns font s.dst * font.width.toNat = s.dst.w.toNat :=
    Nat.div_mul_cancel hgrid.whole
  constructor
  case frame => exact hframe
  case glyph =>
    intro k ch entry column line hget hentry hcolumn hline hvisible
    have hcell : ((start + k) % columns font s.dst + 1) * font.width.toNat ≤
        columns font s.dst * font.width.toNat :=
      Nat.mul_le_mul_right _ (Nat.mod_lt (start + k) hcols)
    rw [Nat.succ_mul] at hcell
    have hpicture : (text.mapIdx (cellPicture font s.dst start))[k]? =
        some (cellPicture font s.dst start k ch) := by
      rw [List.getElem?_mapIdx, hget]
      rfl
    rw [hpixel _ (by omega) _ hvisible, pile_of_unique hpicture]
    · rw [cellPicture, hentry]
      dsimp only
      rw [Picture.shift, if_pos ⟨Nat.le_add_right _ _, Nat.le_add_right _ _⟩,
        Nat.add_sub_cancel_left, Nat.add_sub_cancel_left]
    · -- a character that shows something in this cell is the character of this cell
      intro j other hother hne
      rw [List.getElem?_mapIdx, Option.map_eq_some_iff] at hother
      obtain ⟨ch', hget', rfl⟩ := hother
      by_contra hsome
      obtain ⟨hl, hr, hu, hd⟩ := cell_picture_inside
        (htext ch' (List.mem_of_getElem? hget')) (Option.isSome_iff_ne_none.mpr hsome)
      have hsamecolumn := cell_unique hl hr (Nat.le_add_right _ column) (by omega)
      have hsameline : (start + j) / columns font s.dst = (start + k) / columns font s.dst :=
        cell_unique (x := (start + k) / columns font s.dst * font.height.toNat + line)
          (by omega) (by omega) (Nat.le_add_right _ line) (by omega)
      have hj := Nat.div_add_mod (start + j) (columns font s.dst)
      have hk := Nat.div_add_mod (start + k) (columns font s.dst)
      rw [hsamecolumn, hsameline, hk] at hj
      omega
  case others =>
    intro x hxw y hyh hout
    rw [hpixel x hxw y hyh, pile_eq_none, Option.getD_none]
    intro picture hmem
    obtain ⟨k, hk⟩ := List.getElem?_of_mem hmem
    rw [List.getElem?_mapIdx, Option.map_eq_some_iff] at hk
    obtain ⟨ch, hget, rfl⟩ := hk
    by_contra hsome
    obtain ⟨hl, hr, hu, hd⟩ := cell_picture_inside
      (htext ch (List.mem_of_getElem? hget)) (Option.isSome_iff_ne_none.mpr hsome)
    refine hout k (List.getElem?_eq_some_iff.mp hget).1 ⟨?_, hu, hd⟩
    exact Nat.div_eq_of_lt_le hl (by rw [Nat.succ_mul]; exact hr)

/-- `puts` shows its string from the cell of the cursor on, every character in its own cell. -/
theorem puts_shown {font : SsfnFont} {s : Screen} (hgrid : GridScreen font s.dst) {start : Nat}
    (hstart : start < columns font s.dst) (hx : s.dst.x.toNat = start * font.width.toNat)
    (hupper : 0 ≤ s.dst.y.toInt) {text : List Char8} (hend : 0 ∈ text)
    (htext : ∀ ch ∈ (cString text).map (·.signExtend 32), Readable font s.dst.ink ch)
    (hroom : s.dst.y.toInt + 510 * (cString text).length < 2 ^ 31) :
    ∃ after, s.puts font text = some after ∧
      Shows font s after start s.dst.y.toNat ((cString text).map (·.signExtend 32)) :=
  ⟨_, screen_puts_eq hend s, text_shown hgrid hstart hx hupper htext
    (by rw [List.length_map]; exact hroom)⟩

/-- The cursor while `puts_at` prints. -/
theorem moved_cursor (hfits : s.dst.Fits) (hcells : HasCells font s.dst) {x y : BitVec 32}
    (hx : x.toInt < 2 ^ 22) (hy : y.toInt < 2 ^ 22) :
    (s.moved font x y).dst.x.toNat =
        (wrapped (columns font s.dst) x.toInt).toNat * font.width.toNat ∧
      (s.moved font x y).dst.y.toNat =
        (wrapped (s.dst.h.toNat / font.height.toNat) y.toInt).toNat * font.height.toNat := by
  have hw := width_lt hfits
  obtain ⟨hint, -⟩ := to_int_of_nonneg (Int.le_of_lt hfits.width)
  have hwithin := moved_within hfits hcells hx hy
  have hcolumn := place_bounds hcells.width font.width.isLt hcells.fits_width (by omega) hx
  have hline := place_bounds hcells.height font.height.isLt hcells.fits_height (height_lt hfits) hy
  have hleft : (s.moved font x y).dst.x.toInt =
      wrapped (columns font s.dst) x.toInt * font.width.toNat :=
    to_int_of_int hcolumn.1 hcolumn.2
  have hupper : (s.moved font x y).dst.y.toInt =
      wrapped (s.dst.h.toNat / font.height.toNat) y.toInt * font.height.toNat :=
    to_int_of_int hline.1 hline.2
  have hx' := wrapped_nonneg (Nat.div_pos hcells.fits_width hcells.width) x.toInt
  have hy' := wrapped_nonneg (Nat.div_pos hcells.fits_height hcells.height) y.toInt
  constructor
  · apply Int.ofNat_inj.mp
    rw [← (to_int_of_nonneg hwithin.left).1, hleft, Int.natCast_mul, Int.toNat_of_nonneg]
    exact hx'
  · apply Int.ofNat_inj.mp
    rw [← (to_int_of_nonneg hwithin.upper).1, hupper, Int.natCast_mul, Int.toNat_of_nonneg]
    exact hy'

/-- `puts_at` shows its text from the given cell on, counted from the right and the lower end when
a coordinate is negative, and leaves the cursor and the colours as they were. -/
theorem puts_at_shown (hgrid : GridScreen font s.dst) {x y : BitVec 32} {text : List Char8}
    (hend : 0 ∈ text) (hx : x.toInt < columns font s.dst) (hy : y.toInt < 2 ^ 22)
    (htext : ∀ ch ∈ (cString text).map (·.signExtend 32), Readable font s.dst.ink ch)
    (hlength : (cString text).length < 2 ^ 20) :
    ∃ after, s.putsAt font x y text = some after ∧ after.dst = s.dst ∧
      Shows font s after (wrapped (columns font s.dst) x.toInt).toNat
        ((wrapped (s.dst.h.toNat / font.height.toNat) y.toInt).toNat * font.height.toNat)
        ((cString text).map (·.signExtend 32)) := by
  have hw := width_lt hgrid.fits
  obtain ⟨hint, -⟩ := to_int_of_nonneg (Int.le_of_lt hgrid.fits.width)
  have hcolumns : columns font s.dst ≤ s.dst.w.toNat := Nat.div_le_self _ _
  have hcols : 0 < columns font s.dst :=
    Nat.div_pos hgrid.cells.fits_width hgrid.cells.width
  have hreach : x.toInt < 2 ^ 22 := by omega
  have hwithin := moved_within hgrid.fits hgrid.cells hreach hy
  obtain ⟨hleft, hupper⟩ := moved_cursor hgrid.fits hgrid.cells hreach hy
  have hstart : (wrapped (columns font s.dst) x.toInt).toNat < columns font s.dst := by
    have hlow := wrapped_nonneg hcols x.toInt
    have hhigh := wrapped_lt hcols hx
    omega
  have hgrid' : GridScreen font (s.moved font x y).dst :=
    ⟨hgrid.magic, hgrid.ptr, hwithin.fits, ⟨hgrid.cells.width, hgrid.cells.height,
      hgrid.cells.fits_width, hgrid.cells.fits_height⟩, hgrid.whole⟩
  have hroom : (s.moved font x y).dst.y.toInt +
      510 * ((cString text).map (·.signExtend 32)).length < 2 ^ 31 := by
    have hlower := hwithin.lower
    rw [List.length_map]
    omega
  have hshows := text_shown hgrid' hstart hleft hwithin.upper htext hroom
  rw [hupper] at hshows
  rw [puts_at_eq hgrid.fits hgrid.cells, screen_puts_eq hend]
  refine ⟨_, rfl, ?_, hshows.frame, hshows.glyph, hshows.others⟩
  exact dst_eq_of_parts hshows.frame (putc_all_frame font _ (s.moved font x y)).2 rfl rfl

/-! ## A letter -/

/-- The glyph of the letter stays inside one cell. -/
theorem letter_readable : Readable letterFont consoleInk 0x41 := by
  have hfound : letterFont.charEntry 0x41 = some 34 := by decide +kernel
  constructor
  case has_cell => exact ⟨34, hfound, by decide, by decide⟩
  case no_control => decide
  case inside =>
    intro entry column line hentry hsome
    obtain rfl : 34 = entry := Option.some.inj (hfound.symm.trans hentry)
    rw [letter_picture, bitmapPicture] at hsome
    split at hsome
    · next hinside =>
        have hwidth : letterFont.fragmentWidth 45 = 8 := by decide
        have hcell : letterFont.width.toNat = 8 ∧ letterFont.height.toNat = 16 := by decide
        omega
    · cases hsome

/-- The small screen is divided into cells. -/
theorem letter_screen : GridScreen letterFont blankScreen.dst :=
  ⟨by decide, by decide, screen_fits_1024, letter_cells, by decide⟩

/-- A text of letters can be read. -/
theorem letters_readable (n : Nat) :
    ∀ ch ∈ (cString (List.replicate n (chr 'A') ++ [0])).map (·.signExtend 32),
      Readable letterFont consoleInk ch := by
  intro ch hch
  rw [c_string_of_start (List.prefix_refl _) fun hmem =>
    absurd (List.eq_of_mem_replicate hmem) (by decide), List.map_replicate] at hch
  obtain rfl := List.eq_of_mem_replicate hch
  exact letter_readable

/-- Two letters in the left upper corner. -/
theorem two_letters_shown :
    ∃ after, blankScreen.puts letterFont (List.replicate 2 (chr 'A') ++ [0]) = some after ∧
      Shows letterFont blankScreen after 0 0 (List.replicate 2 0x41) :=
  puts_shown letter_screen (by decide) (Nat.zero_mul _).symm (by decide) (by decide)
    (letters_readable 2) (by decide)

/-- Four letters in the right upper corner, which begin in column 124. -/
theorem four_letters_shown :
    ∃ after, blankScreen.putsAt letterFont (-4) 0 (List.replicate 4 (chr 'A') ++ [0]) =
        some after ∧ after.dst = blankScreen.dst ∧
      Shows letterFont blankScreen after 124 0 (List.replicate 4 0x41) :=
  puts_at_shown letter_screen (by decide) (by decide) (by decide) (letters_readable 4) (by decide)

end SiStultum
