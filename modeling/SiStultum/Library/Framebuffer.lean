import Mathlib.Data.List.Induction
import SiStultum.Library.ByteMemory
import SiStultum.Library.Raster

/-!
# Pictures in a framebuffer

A framebuffer keeps its pixels, four bytes each, in lines that are a pitch apart. A `Picture` gives
a colour to some pixels, and `paint` stores the visible part of a picture. A store to one visible
pixel is a picture of one pixel (`write_eq_paint`), and two pictures one after the other are one
picture (`paint_paint`), so that a program that draws pixel by pixel is described by the picture
that it draws. `pixel_paint` and `paint_outside` say what a picture does to the pixels and to the
rest of the memory.
-/

namespace Framebuffer

open ByteMemory

/-- Where the visible pixels are. -/
structure Geometry where
  base : BitVec 64
  width : Nat
  height : Nat
  /-- The bytes from one line to the next. -/
  pitch : Nat
  aligned : pitch % 4 = 0
  fits : 4 * width ≤ pitch
  bounded : height * pitch ≤ 2 ^ 64

/-- A colour for some of the pixels, by column and line. -/
abbrev Picture := Nat → Nat → Option (BitVec 32)

/-- The first picture is in front of the second one. -/
def Picture.over (front back : Picture) : Picture :=
  fun x y => (front x y).or (back x y)

/-- The picture that colours nothing. -/
def Picture.blank : Picture :=
  fun _ _ => none

/-- A picture of one pixel. -/
def Picture.dot (column line : Nat) (colour : BitVec 32) : Picture :=
  fun x y => if x = column ∧ y = line then some colour else none

/-- A part of one line, from one column to another one. -/
def Picture.span (line first last : Nat) (colours : Nat → Option (BitVec 32)) : Picture :=
  fun x y => if y = line ∧ first ≤ x ∧ x < last then colours x else none

/-- The picture with its left upper corner in another place. -/
def Picture.shift (column line : Nat) (picture : Picture) : Picture :=
  fun x y => if column ≤ x ∧ line ≤ y then picture (x - column) (y - line) else none

namespace Geometry

variable (g : Geometry)

/-- The distance of a pixel from the beginning of the framebuffer. -/
def offset (x y : Nat) : Nat :=
  y * g.pitch + 4 * x

/-- The address of a pixel. -/
def addr (x y : Nat) : BitVec 64 :=
  g.base + BitVec.ofNat 64 (g.offset x y)

/-- The colour of a pixel. -/
def pixel (mem : ByteMemory) (x y : Nat) : BitVec 32 :=
  mem.read (g.addr x y) 4

/-- The colour that a picture gives to the visible pixel with a byte in it. -/
def colour (picture : Picture) (offset : Nat) : Option (BitVec 32) :=
  if offset % g.pitch / 4 < g.width ∧ offset / g.pitch < g.height then
    picture (offset % g.pitch / 4) (offset / g.pitch)
  else none

/-- Store the visible part of a picture. -/
def paint (picture : Picture) (mem : ByteMemory) : ByteMemory :=
  fun byte =>
    match g.colour picture (byte - g.base).toNat with
    | some colour => colour.extractLsb' (8 * ((byte - g.base).toNat % 4)) 8
    | none => mem byte

end Geometry

variable {g : Geometry} {mem : ByteMemory}

/-! ## Pictures over each other -/

/-- A blank picture hides nothing. -/
@[simp] theorem blank_over (picture : Picture) : Picture.blank.over picture = picture :=
  rfl

/-- Nothing is hidden of a blank picture. -/
@[simp] theorem over_blank (picture : Picture) : picture.over Picture.blank = picture := by
  funext x y
  exact Option.or_none

/-- Three pictures, one over the other. -/
theorem over_assoc (first second third : Picture) :
    (first.over second).over third = first.over (second.over third) := by
  funext x y
  exact Option.or_assoc

/-- A blank picture is the same everywhere. -/
@[simp] theorem shift_blank (x y : Nat) : Picture.blank.shift x y = Picture.blank := by
  funext column line
  exact ite_self none

/-- Pictures keep their order when they are moved together. -/
theorem shift_over (x y : Nat) (front back : Picture) :
    (front.over back).shift x y = (front.shift x y).over (back.shift x y) := by
  funext column line
  unfold Picture.over Picture.shift
  split <;> rfl

/-- A pixel moves with its picture. -/
theorem shift_dot (x y column line : Nat) (colour : BitVec 32) :
    (Picture.dot column line colour).shift x y = Picture.dot (x + column) (y + line) colour := by
  funext a b
  unfold Picture.shift Picture.dot
  split <;> grind

/-- A span is drawn from left to right. -/
theorem span_over_span (line : Nat) {first middle last : Nat} (hfirst : first ≤ middle)
    (hlast : middle ≤ last) (colours : Nat → Option (BitVec 32)) :
    (Picture.span line middle last colours).over (Picture.span line first middle colours) =
      Picture.span line first last colours := by
  funext x y
  unfold Picture.over Picture.span
  grind

/-- A span of one column is a pixel. -/
theorem span_dot (line column : Nat) (colours : Nat → Option (BitVec 32)) {colour : BitVec 32}
    (h : colours column = some colour) :
    Picture.span line column (column + 1) colours = Picture.dot column line colour := by
  funext x y
  unfold Picture.span Picture.dot
  grind

/-- A span of no columns is blank. -/
@[simp] theorem span_empty (line column : Nat) (colours : Nat → Option (BitVec 32)) :
    Picture.span line column column colours = Picture.blank := by
  funext x y
  exact if_neg (by omega)

/-- A blank picture paints nothing. -/
@[simp] theorem paint_blank (mem : ByteMemory) : g.paint Picture.blank mem = mem := by
  funext byte
  rw [Geometry.paint, Geometry.colour]
  simp only [Picture.blank, ite_self]

/-- A byte shows the front picture where that has a colour. -/
theorem colour_over (front back : Picture) (offset : Nat) :
    g.colour (front.over back) offset =
      (g.colour front offset).or (g.colour back offset) := by
  unfold Geometry.colour Picture.over
  split <;> rfl

/-- Painting a picture after another one is painting it in front of the other one. -/
theorem paint_paint (front back : Picture) (mem : ByteMemory) :
    g.paint front (g.paint back mem) = g.paint (front.over back) mem := by
  funext byte
  simp only [Geometry.paint, colour_over]
  cases g.colour front (byte - g.base).toNat with
  | some colour => rfl
  | none => rfl

/-- Only what is visible of a picture counts. -/
theorem paint_congr {first second : Picture}
    (h : ∀ x < g.width, ∀ y < g.height, first x y = second x y) (mem : ByteMemory) :
    g.paint first mem = g.paint second mem := by
  have hcolour : g.colour first = g.colour second := by
    funext offset
    rw [Geometry.colour, Geometry.colour]
    split
    · next hvisible => exact h _ hvisible.1 _ hvisible.2
    · rfl
  unfold Geometry.paint
  rw [hcolour]

/-! ## The bytes of a pixel -/

variable {x y : Nat}

/-- A visible pixel ends inside the framebuffer. -/
theorem offset_add_le (hx : x < g.width) (hy : y < g.height) :
    g.offset x y + 4 ≤ g.height * g.pitch := by
  have hfits := g.fits
  exact Raster.offset_le (by omega) hy

/-- The column and the line of a byte. -/
theorem offset_unique (hx : x < g.width) (offset : Nat) :
    g.offset x y ≤ offset ∧ offset < g.offset x y + 4 ↔
      offset % g.pitch / 4 = x ∧ offset / g.pitch = y := by
  have hfits := g.fits
  obtain ⟨quarter, hpitch⟩ : ∃ quarter, g.pitch = 4 * quarter :=
    ⟨g.pitch / 4, by have := g.aligned; omega⟩
  have hpos : 0 < g.pitch := by omega
  unfold Geometry.offset
  constructor
  · intro ⟨hlow, hhigh⟩
    have hline : offset / g.pitch = y := by
      refine Nat.div_eq_of_lt_le (Nat.le_trans (Nat.le_add_right _ _) hlow) ?_
      rw [Nat.succ_mul]
      omega
    have hrest : g.pitch * y + offset % g.pitch = offset := by
      rw [← hline]
      exact Nat.div_add_mod offset g.pitch
    rw [Nat.mul_comm] at hrest
    omega
  · intro ⟨hcolumn, hline⟩
    have hrest : g.pitch * y + offset % g.pitch = offset := by
      rw [← hline]
      exact Nat.div_add_mod offset g.pitch
    rw [Nat.mul_comm] at hrest
    omega

/-- A byte belongs to a visible pixel if its column and its line are those of the pixel. -/
theorem byte_of_pixel (hx : x < g.width) (hy : y < g.height) (byte : BitVec 64) :
    (byte - g.addr x y).toNat < 4 ↔
      (byte - g.base).toNat % g.pitch / 4 = x ∧ (byte - g.base).toNat / g.pitch = y := by
  have hbound := offset_add_le hx hy
  have hsize := g.bounded
  have hbyte := (byte - g.base).isLt
  rw [← offset_unique hx, Geometry.addr]
  generalize g.offset x y = offset at hbound ⊢
  have hsub : byte - (g.base + BitVec.ofNat 64 offset) =
      byte - g.base - BitVec.ofNat 64 offset := by
    bv_omega
  rw [hsub]
  generalize byte - g.base = distance at hbyte ⊢
  have hoffset : (BitVec.ofNat 64 offset).toNat = offset := by
    rw [BitVec.toNat_ofNat]
    omega
  rw [BitVec.toNat_sub, hoffset]
  omega

/-- A store to a visible pixel paints that pixel. -/
theorem write_eq_paint (hx : x < g.width) (hy : y < g.height) (colour : BitVec 32) :
    mem.write (g.addr x y) 4 colour = g.paint (Picture.dot x y colour) mem := by
  funext byte
  rw [write, Geometry.paint, Geometry.colour]
  by_cases hbyte : (byte - g.addr x y).toNat < 4
  · obtain ⟨hcolumn, hline⟩ := (byte_of_pixel hx hy byte).mp hbyte
    have hdot : Picture.dot x y colour x y = some colour := if_pos ⟨rfl, rfl⟩
    have hlow : (byte - g.addr x y).toNat = (byte - g.base).toNat % 4 := by
      have hbound := offset_add_le hx hy
      have hsize := g.bounded
      have hmultiple : g.offset x y % 4 = 0 := by
        rw [Geometry.offset, Nat.add_mod, Nat.mul_mod, g.aligned]
        simp
      unfold Geometry.addr at hbyte ⊢
      generalize g.offset x y = offset at hbyte hbound hmultiple ⊢
      have hsub : byte - g.base =
          byte - (g.base + BitVec.ofNat 64 offset) + BitVec.ofNat 64 offset := by
        bv_omega
      have hoffset : (BitVec.ofNat 64 offset).toNat = offset := by
        rw [BitVec.toNat_ofNat]
        omega
      rw [hsub, BitVec.toNat_add, hoffset]
      omega
    rw [if_pos hbyte, hcolumn, hline, if_pos ⟨hx, hy⟩, hdot, hlow]
  · rw [if_neg hbyte]
    have hother : (if (byte - g.base).toNat % g.pitch / 4 < g.width ∧
        (byte - g.base).toNat / g.pitch < g.height then
        Picture.dot x y colour ((byte - g.base).toNat % g.pitch / 4)
          ((byte - g.base).toNat / g.pitch) else none) = none := by
      split
      · exact if_neg (mt (byte_of_pixel hx hy byte).mpr hbyte)
      · rfl
    rw [hother]

/-- A visible pixel after painting: the colour of the picture, or the one it had. -/
theorem pixel_paint (hx : x < g.width) (hy : y < g.height) (picture : Picture)
    (mem : ByteMemory) :
    g.pixel (g.paint picture mem) x y = (picture x y).getD (g.pixel mem x y) := by
  have hbyte : ∀ k < 4, g.colour picture
      (g.addr x y + BitVec.ofNat 64 k - g.base).toNat = picture x y := by
    intro k hk
    have hinside : (g.addr x y + BitVec.ofNat 64 k - g.addr x y).toNat < 4 := by
      rw [offset_to_nat _ (by omega)]
      exact hk
    obtain ⟨hcolumn, hline⟩ := (byte_of_pixel hx hy _).mp hinside
    rw [Geometry.colour, hcolumn, hline, if_pos ⟨hx, hy⟩]
  cases hpicture : picture x y with
  | none =>
      refine read_congr fun k hk => ?_
      rw [Geometry.paint, hbyte k hk, hpicture]
  | some colour =>
      -- the picture of that pixel alone leaves the same bytes
      have hdot : g.pixel (g.paint (Picture.dot x y colour) mem) x y = colour := by
        rw [Geometry.pixel, ← write_eq_paint hx hy]
        exact read_write_same (n := 4) (by decide) colour
      refine Eq.trans (read_congr fun k hk => ?_) hdot
      have hinside : (g.addr x y + BitVec.ofNat 64 k - g.addr x y).toNat < 4 := by
        rw [offset_to_nat _ (by omega)]
        exact hk
      obtain ⟨hcolumn, hline⟩ := (byte_of_pixel hx hy _).mp hinside
      rw [Geometry.paint, Geometry.paint, hbyte k hk, hpicture, Geometry.colour, hcolumn, hline,
        if_pos ⟨hx, hy⟩, Picture.dot, if_pos ⟨rfl, rfl⟩]

/-- A byte of no visible pixel is not painted. -/
theorem paint_outside {byte : BitVec 64}
    (h : ∀ x < g.width, ∀ y < g.height, 4 ≤ (byte - g.addr x y).toNat) (picture : Picture)
    (mem : ByteMemory) : g.paint picture mem byte = mem byte := by
  have hnone : g.colour picture (byte - g.base).toNat = none := by
    refine if_neg fun hvisible => ?_
    have hfar := h _ hvisible.1 _ hvisible.2
    exact absurd ((byte_of_pixel hvisible.1 hvisible.2 byte).mpr ⟨rfl, rfl⟩) (by omega)
  rw [Geometry.paint, hnone]

/-- Nothing is painted behind the last line. -/
theorem paint_beyond {byte : BitVec 64} (h : g.height * g.pitch ≤ (byte - g.base).toNat)
    (picture : Picture) (mem : ByteMemory) : g.paint picture mem byte = mem byte := by
  refine paint_outside (fun x hx y hy => ?_) picture mem
  have hbound := offset_add_le hx hy
  refine Nat.le_of_not_lt fun hbyte => ?_
  obtain ⟨-, hhigh⟩ := (offset_unique hx _).mpr ((byte_of_pixel hx hy byte).mp hbyte)
  omega

/-! ## Several pictures -/

/-- Paint pictures one after the other. -/
def paintAll (g : Geometry) (pictures : List Picture) (mem : ByteMemory) : ByteMemory :=
  pictures.foldl (fun mem picture => g.paint picture mem) mem

/-- Pictures on a pile, the last one on top. -/
def Picture.pile (pictures : List Picture) : Picture :=
  pictures.foldl (fun back front => front.over back) Picture.blank

/-- The last picture lies on top of the others. -/
theorem pile_concat (pictures : List Picture) (last : Picture) :
    Picture.pile (pictures ++ [last]) = last.over (Picture.pile pictures) := by
  rw [Picture.pile, List.foldl_append]
  rfl

/-- Where no picture of a pile has a colour, the pile has none. -/
theorem pile_eq_none {pictures : List Picture} {x y : Nat}
    (h : ∀ picture ∈ pictures, picture x y = none) : Picture.pile pictures x y = none := by
  induction pictures using List.reverseRecOn with
  | nil => rfl
  | append_singleton pictures last ih =>
      rw [List.forall_mem_append] at h
      rw [pile_concat, Picture.over, h.2 last List.mem_cons_self, Option.none_or, ih h.1]

/-- Pictures one after the other are painted as their pile. -/
theorem paint_all_eq (pictures : List Picture) (mem : ByteMemory) :
    paintAll g pictures mem = g.paint (Picture.pile pictures) mem := by
  induction pictures using List.reverseRecOn with
  | nil => exact (paint_blank mem).symm
  | append_singleton pictures last ih =>
      have hlast : paintAll g (pictures ++ [last]) mem =
          g.paint last (paintAll g pictures mem) :=
        List.foldl_append
      rw [hlast, ih, paint_paint, pile_concat]

/-- Where only one picture of a pile has a colour, the pile has that colour. -/
theorem pile_of_unique {pictures : List Picture} {picture : Picture} {x y k : Nat}
    (hget : pictures[k]? = some picture)
    (hother : ∀ j other, pictures[j]? = some other → j ≠ k → other x y = none) :
    Picture.pile pictures x y = picture x y := by
  induction pictures using List.reverseRecOn with
  | nil => cases hget
  | append_singleton pictures last ih =>
      rw [pile_concat, Picture.over]
      have hbelow : ∀ j other, pictures[j]? = some other → j ≠ k → other x y = none := by
        intro j other hj
        have hlt := (List.getElem?_eq_some_iff.mp hj).1
        exact hother j other (by rw [List.getElem?_append_left hlt, hj])
      by_cases hlast : k < pictures.length
      · have hnone : last x y = none :=
          hother pictures.length last List.getElem?_concat_length (by omega)
        rw [List.getElem?_append_left hlast] at hget
        rw [hnone, Option.none_or, ih hget hbelow]
      · obtain ⟨hlt, hsame⟩ := List.getElem?_eq_some_iff.mp hget
        rw [List.length_append, List.length_singleton] at hlt
        obtain rfl : k = pictures.length := by omega
        rw [List.getElem?_concat_length, Option.some_inj] at hget
        subst hget
        have hrest : Picture.pile pictures x y = none :=
          pile_eq_none fun other hmem => by
            obtain ⟨j, hj⟩ := List.getElem?_of_mem hmem
            have hlt := (List.getElem?_eq_some_iff.mp hj).1
            exact hbelow j other hj (by omega)
        rw [hrest, Option.or_none]

end Framebuffer
