import SiStultum.PageFrames.FreeSet

/-!
# Where the bitmap lies

`ppa_init` puts the bitmap at the start of the first of the largest conventional segments and does
not compare their sizes. The bitmap grows with the pages of all descriptors, so it stays inside
conventional memory exactly when the largest segment has a page for every 32768 pages of the map
(`bitmap_inside_iff`).
-/

namespace SiStultum

open PpaState

/-- The number of pages of the largest conventional descriptor. -/
def largestPages : List EfiMemoryDescriptor → Nat
  | [] => 0
  | desc :: mmap =>
      if desc.Conventional then max desc.numberofpages.toNat (largestPages mmap)
      else largestPages mmap

/-- The `length` bytes from `start` on lie inside one conventional descriptor of the map. -/
def InsideConventional (mmap : List EfiMemoryDescriptor) (start length : Nat) : Prop :=
  ∃ desc ∈ mmap, desc.Conventional ∧ desc.physicalstart.toNat ≤ start ∧
    start + length ≤ desc.physicalstart.toNat + 4096 * desc.numberofpages.toNat

/-- No conventional descriptor is larger than the largest one. -/
theorem pages_le_largest {mmap : List EfiMemoryDescriptor} {desc : EfiMemoryDescriptor}
    (hmem : desc ∈ mmap) (h : desc.Conventional) :
    desc.numberofpages.toNat ≤ largestPages mmap := by
  induction mmap with
  | nil => cases hmem
  | cons first mmap ih =>
      rw [largestPages]
      rcases List.mem_cons.mp hmem with rfl | hmem
      · rw [if_pos h]
        exact le_max_left _ _
      · have hrest := ih hmem
        split
        · omega
        · exact hrest

/-- One descriptor of the walk: the segment is replaced by a larger conventional one only. -/
theorem scan_next_cases {scan : MapScan} {desc : EfiMemoryDescriptor} {pages : Nat}
    (hshort : desc.numberofpages.toNat < 2 ^ 52) (h : scan.largestSize.toNat = 4096 * pages) :
    (desc.Conventional ∧ pages < desc.numberofpages.toNat ∧
      (scan.next desc).largestSegment = desc.physicalstart ∧
      (scan.next desc).largestSize.toNat = 4096 * desc.numberofpages.toNat) ∨
    ((desc.Conventional → desc.numberofpages.toNat ≤ pages) ∧
      (scan.next desc).largestSegment = scan.largestSegment ∧
      (scan.next desc).largestSize.toNat = 4096 * pages) := by
  have hsize := pages_size hshort
  by_cases hlarger : desc.Conventional ∧ desc.numberofpages * 4096 > scan.largestSize
  · have hgt := hlarger.2
    refine .inl ⟨hlarger.1, by bv_omega, ?_⟩
    simp only [MapScan.next, if_pos hlarger]
    exact ⟨trivial, hsize⟩
  · refine .inr ⟨fun hconventional => ?_, ?_⟩
    · have hle : ¬ desc.numberofpages * 4096 > scan.largestSize :=
        fun hgt => hlarger ⟨hconventional, hgt⟩
      bv_omega
    · simp only [MapScan.next, if_neg hlarger]
      exact ⟨trivial, h⟩

/-- The walk ends with the segment it came with, if the map has no larger one, or else with one of
the largest conventional segments of the map. -/
theorem scan_largest {mmap : List EfiMemoryDescriptor}
    (hshort : ∀ d ∈ mmap, d.numberofpages.toNat < 2 ^ 52) {scan : MapScan} {pages : Nat}
    (h : scan.largestSize.toNat = 4096 * pages) :
    ((mmap.foldl MapScan.next scan).largestSegment = scan.largestSegment ∧
      largestPages mmap ≤ pages) ∨
    pages < largestPages mmap ∧ ∃ desc ∈ mmap, desc.Conventional ∧
      (mmap.foldl MapScan.next scan).largestSegment = desc.physicalstart ∧
      desc.numberofpages.toNat = largestPages mmap := by
  induction mmap generalizing scan pages with
  | nil => exact .inl ⟨rfl, Nat.zero_le _⟩
  | cons desc mmap ih =>
      have hrest := fun d hd => hshort d (List.mem_cons_of_mem desc hd)
      rw [List.foldl_cons, largestPages]
      obtain ⟨hconventional, hlarger, hsegment, hsize⟩ | ⟨hsmaller, hsegment, hsize⟩ :=
        scan_next_cases (hshort desc List.mem_cons_self) h
      -- a larger descriptor takes the place, and the rest of the map competes with it
      · rw [if_pos hconventional]
        right
        obtain ⟨hkept, hle⟩ | ⟨hlt, d, hd, hd_conventional, hd_segment, hd_pages⟩ :=
          ih hrest hsize
        · refine ⟨by omega, desc, List.mem_cons_self, hconventional, hkept.trans hsegment, ?_⟩
          omega
        · refine ⟨by omega, d, List.mem_cons_of_mem desc hd, hd_conventional, hd_segment, ?_⟩
          omega
      -- a descriptor that is not larger changes neither the segment nor the maximum
      · have hlargest : largestPages mmap ≤ pages ↔
            (if desc.Conventional then max desc.numberofpages.toNat (largestPages mmap)
              else largestPages mmap) ≤ pages := by
          split
          · next hconventional =>
            have hle := hsmaller hconventional
            omega
          · exact Iff.rfl
        obtain ⟨hkept, hle⟩ | ⟨hlt, d, hd, hd_conventional, hd_segment, hd_pages⟩ :=
          ih hrest hsize
        · exact .inl ⟨hkept.trans hsegment, hlargest.mp hle⟩
        · have hsame : (if desc.Conventional then max desc.numberofpages.toNat (largestPages mmap)
              else largestPages mmap) = largestPages mmap := by
            split
            · next hconventional =>
              have hle := hsmaller hconventional
              omega
            · rfl
          rw [hsame]
          exact .inr ⟨hlt, d, List.mem_cons_of_mem desc hd, hd_conventional, hd_segment,
            hd_pages⟩

/-- The bitmap starts at one of the largest conventional descriptors. -/
theorem largest_descriptor {mmap : List EfiMemoryDescriptor}
    (hshort : ∀ d ∈ mmap, d.numberofpages.toNat < 2 ^ 52) (haccepted : Accepted mmap) :
    ∃ desc ∈ mmap, desc.Conventional ∧ (scanMap mmap).largestSegment = desc.physicalstart ∧
      desc.numberofpages.toNat = largestPages mmap := by
  have hzero : MapScan.largestSize ⟨0, 0, 0⟩ = 0 := rfl
  obtain ⟨hnone, _⟩ | ⟨_, hdesc⟩ :=
    scan_largest hshort (show (MapScan.largestSize ⟨0, 0, 0⟩).toNat = 4096 * 0 by rw [hzero]; rfl)
  · exact absurd hnone haccepted
  · exact hdesc

/-- The bitmap of a map that is accepted lies inside one conventional descriptor exactly when the
largest conventional descriptor is large enough for it. -/
theorem bitmap_inside_iff (words : Nat → BitVec 32) (mmap reread : List EfiMemoryDescriptor)
    (hpages : pageCount mmap < 2 ^ 52) (haccepted : Accepted mmap) :
    let s := ppaInit (ppaBoot words) mmap reread
    s.bitmap.size.toNat = pageCount mmap / 32 + 1 ∧
      (InsideConventional mmap s.bitmap.data.toNat (4 * s.bitmap.size.toNat) ↔
        pageCount mmap / 32 + 1 ≤ 1024 * largestPages mmap) := by
  have hfixed := ppa_reach_fixed words reread [] haccepted
  have hreach : ppaReach words mmap reread [] = ppaInit (ppaBoot words) mmap reread := rfl
  rw [hreach] at hfixed
  simp only [fixed, Prod.mk.injEq] at hfixed
  have htotal := scan_total_eq hpages
  have hsize : ((scanMap mmap).memTotal / 4096 / 32 + 1).toNat = pageCount mmap / 32 + 1 := by
    rw [bitmap_size_to_nat]
    omega
  intro s
  have hshort : ∀ d ∈ mmap, d.numberofpages.toNat < 2 ^ 52 :=
    fun d hd => Nat.lt_of_le_of_lt (pages_le_count hd) hpages
  obtain ⟨desc, hdesc, hconventional, hsegment, hlargest⟩ := largest_descriptor hshort haccepted
  rw [hfixed.1, hfixed.2.2.1, hsize, hsegment]
  refine ⟨rfl, ?_, ?_⟩
  · rintro ⟨d, hd, hd_conventional, hlow, hhigh⟩
    have hle := pages_le_largest hd hd_conventional
    omega
  · intro hfits
    exact ⟨desc, hdesc, hconventional, le_refl _, by omega⟩

/-- A map whose bitmap fits. -/
theorem low_map_bitmap_inside :
    let s := ppaInit (ppaBoot fun _ => 0) (lowMap 64) (lowMap 64)
    s.bitmap.size.toNat = pageCount (lowMap 64) / 32 + 1 ∧
      (InsideConventional (lowMap 64) s.bitmap.data.toNat (4 * s.bitmap.size.toNat) ↔
        pageCount (lowMap 64) / 32 + 1 ≤ 1024 * largestPages (lowMap 64)) :=
  bitmap_inside_iff (fun _ => 0) (lowMap 64) (lowMap 64) (by decide) (by decide)

/-- 32768 reserved pages, one conventional page at 128 MiB and one page of loader data after it. -/
def narrowMap : List EfiMemoryDescriptor :=
  [⟨EfiMemoryType.EfiReservedMemoryType.value, 0, 0x8000⟩,
    ⟨EfiMemoryType.EfiConventionalMemory.value, 0x8000000, 1⟩,
    ⟨EfiMemoryType.EfiLoaderData.value, 0x8001000, 1⟩]

/-- The bitmap of `narrowMap` has 1025 words, the last of them in the loader data. -/
theorem narrow_map_bitmap_outside :
    let s := ppaInit (ppaBoot fun _ => 0) narrowMap narrowMap
    s.bitmap.data = 0x8000000 ∧ s.bitmap.size = 1025 ∧
      ¬ InsideConventional narrowMap s.bitmap.data.toNat (4 * s.bitmap.size.toNat) := by
  have hfixed := ppa_reach_fixed (fun _ => 0) narrowMap [] (show Accepted narrowMap by decide)
  have hreach : ppaReach (fun _ => 0) narrowMap narrowMap [] =
      ppaInit (ppaBoot fun _ => 0) narrowMap narrowMap := rfl
  rw [hreach] at hfixed
  simp only [fixed, Prod.mk.injEq] at hfixed
  intro s
  have hdata : s.bitmap.data = 0x8000000 := hfixed.2.2.1.trans (by decide)
  have hsize : s.bitmap.size = 1025 := hfixed.1.trans (by decide)
  refine ⟨hdata, hsize, ?_⟩
  rw [hdata, hsize]
  rintro ⟨desc, hdesc, hconventional, hlow, hhigh⟩
  have hpages := pages_le_largest hdesc hconventional
  have hlargest : largestPages narrowMap = 1 := by decide
  have hwords : (1025 : BitVec 64).toNat = 1025 := by decide
  omega

end SiStultum
