import Mathlib.Algebra.Order.Ring.Int
import Mathlib.Tactic.Common

/-!
# Rasters

Text that flows over a line of fixed width, and lines that are stored one after the other.

`flowed` puts equal cells next to each other and starts a new line when the width has been used
up. In a line that is a whole number of cells this is the grid of `flowed_of_dvd`; in any other
line one more cell begins behind the last whole one (`full_cells_lt`). `offsets_below_iff` says
for which geometries the pixels of a raster are the first ones of the memory.
-/

namespace Raster

/-! ## Flowing cells -/

/-- The place of the next cell, as the distance from the left and the number of the line. -/
def flow (width cell : Nat) (place : Nat × Nat) : Nat × Nat :=
  if width ≤ place.1 + cell then (0, place.2 + 1) else (place.1 + cell, place.2)

/-- The place of cell `k`. -/
def flowed (width cell : Nat) : Nat → Nat × Nat
  | 0 => (0, 0)
  | k + 1 => flow width cell (flowed width cell k)

variable {width cell k : Nat}

/-- Cells that begin inside the first line are on the first line. -/
theorem flowed_first_line (h : k * cell < width) : flowed width cell k = (k * cell, 0) := by
  induction k with
  | zero => rw [flowed, Nat.zero_mul]
  | succ k ih =>
      rw [Nat.succ_mul] at h
      rw [flowed, ih (by omega), flow, if_neg (Nat.not_le_of_lt h), Nat.succ_mul]

/-- When the cells do not fill the line, something is left of it behind the last whole one. -/
theorem full_cells_lt (hrest : ¬ cell ∣ width) : width / cell * cell < width := by
  refine Nat.lt_of_le_of_ne (Nat.div_mul_le_self width cell) fun hfull => hrest ?_
  exact ⟨width / cell, by rw [Nat.mul_comm, hfull]⟩

/-- The place of cell `k` of a grid with `cols` columns. -/
def gridPlace (cols cell k : Nat) : Nat × Nat :=
  (k % cols * cell, k / cols)

/-- When the cells fill the line, they form a grid. -/
theorem flowed_of_dvd {cols : Nat} (hcols : 0 < cols) (hcell : 0 < cell) (k : Nat) :
    flowed (cols * cell) cell k = gridPlace cols cell k := by
  induction k with
  | zero => simp [flowed, gridPlace]
  | succ k ih =>
      have hlt := Nat.mod_lt k hcols
      rw [flowed, ih, flow, gridPlace, gridPlace]
      split
      · next hend =>
          -- the last cell of a line
          have hlast : k % cols + 1 = cols := by
            have hle : cols ≤ k % cols + 1 := by
              rw [← Nat.succ_mul] at hend
              exact Nat.le_of_mul_le_mul_right hend hcell
            omega
          obtain ⟨hdiv, hmod⟩ : (k + 1) / cols = k / cols + 1 ∧ (k + 1) % cols = 0 := by
            refine (Nat.div_mod_unique hcols).mpr ⟨?_, hcols⟩
            have hk := Nat.div_add_mod k cols
            rw [Nat.mul_succ]
            omega
          rw [hdiv, hmod, Nat.zero_mul]
      · next hinside =>
          have hnext : k % cols + 1 < cols := by
            refine Nat.lt_of_not_le fun hle => hinside ?_
            rw [← Nat.succ_mul]
            exact Nat.mul_le_mul_right cell hle
          obtain ⟨hdiv, hmod⟩ : (k + 1) / cols = k / cols ∧ (k + 1) % cols = k % cols + 1 := by
            refine (Nat.div_mod_unique hcols).mpr ⟨?_, hnext⟩
            have hk := Nat.div_add_mod k cols
            omega
          rw [hdiv, hmod, Nat.succ_mul]

/-- Every cell of a grid lies inside the line. -/
theorem grid_place_inside (hcell : 0 < cell) (hfits : cell ≤ width) (k : Nat) :
    (gridPlace (width / cell) cell k).1 + cell ≤ width := by
  have hlt : k % (width / cell) < width / cell := Nat.mod_lt k (Nat.div_pos hfits hcell)
  calc (gridPlace (width / cell) cell k).1 + cell
      = (k % (width / cell) + 1) * cell := by rw [gridPlace, Nat.succ_mul]
    _ ≤ width / cell * cell := Nat.mul_le_mul_right cell hlt
    _ ≤ width := Nat.div_mul_le_self width cell

/-! ## Lines in memory -/

/-- What lies inside a line lies in the memory of the raster. -/
theorem offset_le {h pitch x y len : Nat} (hx : x + len ≤ pitch) (hy : y < h) :
    y * pitch + x + len ≤ h * pitch := by
  calc y * pitch + x + len ≤ (y + 1) * pitch := by
        rw [Nat.succ_mul]
        omega
    _ ≤ h * pitch := Nat.mul_le_mul_right pitch hy

/-- At most `w * h` pixels reach all of a raster exactly if they are that many and no line but the
last has a rest behind its pixels. -/
theorem offsets_below_iff {w h pitch len : Nat} (hw : 0 < w) (hh : 0 < h) (hpitch : w ≤ pitch)
    (hlen : len ≤ w * h) :
    (∀ x < w, ∀ y < h, y * pitch + x < len) ↔ len = w * h ∧ (h = 1 ∨ pitch = w) := by
  obtain ⟨lines, rfl⟩ : ∃ lines, h = lines + 1 := ⟨h - 1, by omega⟩
  have harea : w * (lines + 1) = lines * w + w := by rw [Nat.mul_succ, Nat.mul_comm]
  have hrest : lines * w ≤ lines * pitch := Nat.mul_le_mul_left lines hpitch
  constructor
  · intro hall
    -- the last pixel decides
    have hlast := hall (w - 1) (by omega) lines (Nat.lt_succ_self lines)
    refine ⟨by omega, ?_⟩
    have hsame : lines * pitch = lines * w := by omega
    rcases Nat.eq_zero_or_pos lines with rfl | hlines
    · exact .inl rfl
    · exact .inr (Nat.eq_of_mul_eq_mul_left hlines hsame)
  · intro ⟨hfull, hdense⟩ x hx y hy
    rw [hfull, harea]
    rcases hdense with hone | rfl
    · obtain rfl : lines = 0 := by omega
      obtain rfl : y = 0 := by omega
      omega
    · have hle : y * pitch ≤ lines * pitch := Nat.mul_le_mul_right pitch (Nat.le_of_lt_succ hy)
      omega

end Raster
