import SiStultum.Boot.MemoryLaws

/-!
# The image of the kernel in memory

`GetKernelEntry` allocates the pages of every `PT_LOAD` segment and reads the bytes of the file into
them. It does not write to the rest of a segment, from `p_filesz` to `p_memsz`, which should be 0
and where the kernel has its uninitialised globals.

`Loading` is the invariant of the loop over the program headers: the segments before index `i` hold
the bytes of the file and, after them, what their pages held when they were handed out.
`kernel_image_loaded_iff` is the result: the image is right exactly when these pages held 0 there.
-/

namespace SiStultum

open Hoare ByteMemory

/-- The program header `i` of a file. -/
def fileSegment (file : ByteMemory) (i : Nat) : ProgramHeader :=
  programHeaderAt file ((elfHeaderAt file 0).ePhoff + programHeaderSize * BitVec.ofNat 64 i)

/-- The program header `i` is there, and describes a segment to load. -/
structure LoadsSegment (file : ByteMemory) (i : Nat) : Prop where
  index_lt : i < (elfHeaderAt file 0).ePhnum.toNat
  load : (fileSegment file i).pType = ptLoad

/-- An executable that passes the header check, with program headers of the size that the bootloader
steps by and with segments on page boundaries. That segments do not overlap need not be said: the
pages of the second one could not be allocated. -/
structure LoadableFile (file : ByteMemory) : Prop where
  is_kernel : (elfHeaderAt file 0).isKernel = true
  entry_size : (elfHeaderAt file 0).ePhentsize = 56
  aligned : ∀ i, LoadsSegment file i → (fileSegment file i).pPaddr.toNat % 4096 = 0
  file_size_le : ∀ i, LoadsSegment file i →
    (fileSegment file i).pFilesz.toNat ≤ (fileSegment file i).pMemsz.toNat
  /-- Rounding the size up to pages does not overflow. -/
  pages_fit : ∀ i, LoadsSegment file i → (fileSegment file i).pMemsz.toNat + 0xfff < 2 ^ 64

/-- The memory of every segment begins with the bytes of the file. -/
def FileBytesLoaded (file mem : ByteMemory) : Prop :=
  ∀ i, LoadsSegment file i →
    Copied file (fileSegment file i).pOffset mem (fileSegment file i).pPaddr
      (fileSegment file i).pFilesz.toNat

/-- From `p_filesz` to `p_memsz`, every segment is 0. -/
def ZeroTails (file mem : ByteMemory) : Prop :=
  ∀ i, LoadsSegment file i → ∀ k, (fileSegment file i).pFilesz.toNat ≤ k →
    k < (fileSegment file i).pMemsz.toNat →
    mem ((fileSegment file i).pPaddr + BitVec.ofNat 64 k) = 0

/-- The memory of every segment holds the bytes of the file, and 0 after them. -/
structure ImageLoaded (file mem : ByteMemory) : Prop where
  file_bytes : FileBytesLoaded file mem
  zero_tails : ZeroTails file mem

/-! ## Headers -/

/-- The header that is read from a copy. -/
theorem elf_header_copied {file mem : ByteMemory} {source addr : BitVec 64}
    (h : Copied file source mem addr 64) : elfHeaderAt mem addr = elfHeaderAt file source := by
  have hident : Copied file source mem addr 6 := fun k hk => h k (by omega)
  have hfield : ∀ offset len, offset + len ≤ 64 →
      mem.read (addr + BitVec.ofNat 64 offset) len =
        file.read (source + BitVec.ofNat 64 offset) len :=
    fun offset _ hle => (h.part offset hle).read
  rw [elfHeaderAt, elfHeaderAt, ElfHeader.mk.injEq]
  exact ⟨hident.read, hfield 16 2 (by decide), hfield 18 2 (by decide), hfield 20 4 (by decide),
    hfield 24 8 (by decide), hfield 32 8 (by decide), hfield 54 2 (by decide),
    hfield 56 2 (by decide)⟩

/-- The program header that is read from a copy. -/
theorem program_header_copied {file mem : ByteMemory} {source addr : BitVec 64}
    (h : Copied file source mem addr 56) :
    programHeaderAt mem addr = programHeaderAt file source := by
  have htype : Copied file source mem addr 4 := fun k hk => h k (by omega)
  have hfield : ∀ offset len, offset + len ≤ 56 →
      mem.read (addr + BitVec.ofNat 64 offset) len =
        file.read (source + BitVec.ofNat 64 offset) len :=
    fun offset _ hle => (h.part offset hle).read
  rw [programHeaderAt, programHeaderAt, ProgramHeader.mk.injEq]
  exact ⟨htype.read, hfield 8 8 (by decide), hfield 24 8 (by decide), hfield 32 8 (by decide),
    hfield 40 8 (by decide)⟩

/-- With entries of 56 bytes, the table of program headers has that many bytes for each. -/
theorem load_size_to_nat {headers : ElfHeader} (hsize : headers.ePhentsize = 56) :
    headers.loadSize.toNat = 56 * headers.ePhnum.toNat := by
  have hlt := headers.ePhnum.isLt
  have hproduct : (headers.ePhnum.setWidth 32 * headers.ePhentsize.setWidth 32).toNat =
      56 * headers.ePhnum.toNat := by
    rw [hsize, BitVec.toNat_mul, BitVec.toNat_setWidth, BitVec.toNat_setWidth]
    have h56 : (56#16).toNat = 56 := rfl
    simp only [BitVec.ofNat_eq_ofNat, h56]
    omega
  have hmsb : (headers.ePhnum.setWidth 32 * headers.ePhentsize.setWidth 32).msb = false := by
    rw [BitVec.msb_eq_decide, hproduct]
    simp only [decide_eq_false_iff_not]
    omega
  rw [ElfHeader.loadSize, BitVec.signExtend_eq_setWidth_of_msb_false hmsb, BitVec.toNat_setWidth,
    hproduct]
  omega

/-- The pages of a segment hold all of it. -/
theorem mem_size_le_pages {header : ProgramHeader} (hfit : header.pMemsz.toNat + 0xfff < 2 ^ 64) :
    header.pMemsz.toNat ≤ pageBytes header.pages := by
  have hround : (header.pMemsz + 0x1000 - 1).toNat = header.pMemsz.toNat + 0xfff := by
    bv_omega
  rw [pageBytes, ProgramHeader.pages, BitVec.toNat_udiv, hround]
  have hpage : (0x1000#64).toNat = 4096 := rfl
  simp only [BitVec.ofNat_eq_ofNat, hpage]
  omega

/-! ## The loop over the program headers -/

variable {M : Type} {fw : Firmware M} {view : LoadView M} {file : ByteMemory}

/-- The memory of segment `i` belongs to the bootloader and holds the bytes of the file, followed by
what it held when it was handed out. -/
structure SegmentLoaded (fw : Firmware M) (view : LoadView M) (file : ByteMemory) (start : M)
    (i : Nat) (m : M) : Prop where
  held : ∀ k < (fileSegment file i).pMemsz.toNat,
    view.held m ((fileSegment file i).pPaddr + BitVec.ofNat 64 k)
  bytes : ∀ k < (fileSegment file i).pMemsz.toNat,
    fw.memory m ((fileSegment file i).pPaddr + BitVec.ofNat 64 k) =
      if k < (fileSegment file i).pFilesz.toNat then
        file ((fileSegment file i).pOffset + BitVec.ofNat 64 k)
      else view.prior start ((fileSegment file i).pPaddr + BitVec.ofNat 64 k)

/-- Before round `i` of the loop: the program headers are in memory, and the segments before `i` are
loaded. -/
structure Loading (fw : Firmware M) (view : LoadView M) (file : ByteMemory) (start : M)
    (headers : ElfHeader) (table : BitVec 64) (i : Nat) (m : M) : Prop where
  header_read : headers = elfHeaderAt file 0
  grows : Grows view start m
  table_held : ∀ k < 56 * headers.ePhnum.toNat, view.held m (table + BitVec.ofNat 64 k)
  table_read : Copied file headers.ePhoff (fw.memory m) table (56 * headers.ePhnum.toNat)
  loaded : ∀ j < i, LoadsSegment file j → SegmentLoaded fw view file start j m

variable {start before m : M} {headers : ElfHeader} {table : BitVec 64} {i : Nat}

/-- The invariant survives everything that leaves the bytes of the bootloader alone. -/
theorem Loading.leaves (h : Loading fw view file start headers table i before)
    (hleaves : Leaves fw view before m) : Loading fw view file start headers table i m := by
  constructor
  case header_read => exact h.header_read
  case grows => exact h.grows.trans hleaves.toGrows
  case table_held => exact fun k hk => hleaves.held _ (h.table_held k hk)
  case table_read => exact hleaves.copied h.table_held h.table_read
  case loaded =>
    intro j hj hloads
    obtain ⟨hheld, hbytes⟩ := h.loaded j hj hloads
    refine ⟨fun k hk => hleaves.held _ (hheld k hk), fun k hk => ?_⟩
    rw [hleaves.memory _ (hheld k hk), hbytes k hk]

/-- The program header that the loop looks at is the one of the file. -/
theorem Loading.segment (h : Loading fw view file start headers table i m)
    (hi : i < headers.ePhnum.toNat) :
    programHeaderAt (fw.memory m) (table + programHeaderSize * BitVec.ofNat 64 i) =
      fileSegment file i := by
  have hstep : programHeaderSize * BitVec.ofNat 64 i = BitVec.ofNat 64 (56 * i) := by
    rw [programHeaderSize]
    bv_omega
  rw [fileSegment, ← h.header_read, hstep]
  exact program_header_copied (h.table_read.part (56 * i) (by omega))

/-- Between the allocation of the pages of segment `i` and the read into them. -/
structure Placed (fw : Firmware M) (view : LoadView M) (file : ByteMemory) (start : M)
    (headers : ElfHeader) (table : BitVec 64) (i : Nat) (before m : M) : Prop where
  loading : Loading fw view file start headers table i before
  leaves : Leaves fw view before m
  free : ∀ k < (fileSegment file i).pMemsz.toNat,
    ¬ view.held before ((fileSegment file i).pPaddr + BitVec.ofNat 64 k)
  owned : ∀ k < (fileSegment file i).pMemsz.toNat,
    view.held m ((fileSegment file i).pPaddr + BitVec.ofNat 64 k)
  contents : ∀ k < (fileSegment file i).pMemsz.toNat,
    fw.memory m ((fileSegment file i).pPaddr + BitVec.ofNat 64 k) =
      view.prior start ((fileSegment file i).pPaddr + BitVec.ofNat 64 k)

/-- The pages of the segment have just been allocated. -/
theorem Loading.placed (h : Loading fw view file start headers table i before)
    (hfit : (fileSegment file i).pMemsz.toNat + 0xfff < 2 ^ 64)
    (hpages : Allocates fw view (fileSegment file i).pPaddr (pageBytes (fileSegment file i).pages)
      before m)
    (hcontents : ∀ k < pageBytes (fileSegment file i).pages,
      fw.memory m ((fileSegment file i).pPaddr + BitVec.ofNat 64 k) =
        view.prior before ((fileSegment file i).pPaddr + BitVec.ofNat 64 k)) :
    Placed fw view file start headers table i before m := by
  have hsize := mem_size_le_pages hfit
  constructor
  case loading => exact h
  case leaves => exact hpages.toLeaves
  case free => exact fun k hk => hpages.free k (by omega)
  case owned => exact fun k hk => hpages.owned k (by omega)
  case contents =>
    intro k hk
    rw [hcontents k (by omega), h.grows.prior _ (hpages.free k (by omega))]

/-- What has been placed stays when only other memory changes. -/
theorem Placed.trans {after : M} (h : Placed fw view file start headers table i before m)
    (hleaves : Leaves fw view m after) :
    Placed fw view file start headers table i before after := by
  constructor
  case loading => exact h.loading
  case leaves => exact h.leaves.trans hleaves
  case free => exact h.free
  case owned => exact fun k hk => hleaves.held _ (h.owned k hk)
  case contents =>
    intro k hk
    rw [hleaves.memory _ (h.owned k hk), h.contents k hk]

/-- Reading the bytes of the segment completes the round. -/
theorem Placed.read {after : M} (h : Placed fw view file start headers table i before m)
    (hsize : (fileSegment file i).pFilesz.toNat ≤ (fileSegment file i).pMemsz.toNat)
    (hreads : FileRead fw view file (fileSegment file i).pOffset (fileSegment file i).pPaddr
      (fileSegment file i).pFilesz.toNat m after) :
    Loading fw view file start headers table (i + 1) after := by
  have hlt := (fileSegment file i).pMemsz.isLt
  -- the read stays inside the new pages, so the bytes from before are left alone
  have hleaves : Leaves fw view before after := by
    refine { h.leaves.toGrows.trans hreads.toGrows with memory := fun byte hheld => ?_ }
    have houtside : (fileSegment file i).pFilesz.toNat ≤
        (byte - (fileSegment file i).pPaddr).toNat := by
      by_contra hinside
      have hbyte : (fileSegment file i).pPaddr +
          BitVec.ofNat 64 (byte - (fileSegment file i).pPaddr).toNat = byte := by
        bv_omega
      exact h.free (byte - (fileSegment file i).pPaddr).toNat (by omega) (hbyte.symm ▸ hheld)
    rw [hreads.outside byte houtside (h.leaves.held byte hheld), h.leaves.memory byte hheld]
  refine { h.loading.leaves hleaves with loaded := fun j hj hloads => ?_ }
  rcases Nat.lt_succ_iff_lt_or_eq.mp hj with hbefore | rfl
  · exact (h.loading.leaves hleaves).loaded j hbefore hloads
  · refine ⟨fun k hk => hreads.held _ (h.owned k hk), fun k hk => ?_⟩
    split
    · next hfile => exact hreads.inside k hfile
    -- past `p_filesz` there is what the pages held when they were handed out
    · next htail =>
        have hoffset := offset_to_nat (fileSegment file j).pPaddr (show k < 2 ^ 64 by omega)
        rw [hreads.outside _ (by omega) (h.owned k hk), h.contents k hk]

/-- What round `i` knows after `AllocatePages`: its header, and where the segment is. -/
def RoundPlaced (fw : Firmware M) (view : LoadView M) (file : ByteMemory) (start : M)
    (headers : ElfHeader) (table : BitVec 64) (i : Nat) (header : ProgramHeader)
    (segment : BitVec 64) (m : M) : Prop :=
  header = fileSegment file i ∧ segment = header.pPaddr ∧ LoadsSegment file i ∧
    ∃ before, Placed fw view file start headers table i before m

/-- So does what a round of the loop has placed. -/
theorem RoundPlaced.trans {after : M} {header : ProgramHeader} {segment : BitVec 64}
    (h : RoundPlaced fw view file start headers table i header segment m)
    (hleaves : Leaves fw view m after) :
    RoundPlaced fw view file start headers table i header segment after := by
  obtain ⟨hheader, hsegment, hloads, before, hplaced⟩ := h
  exact ⟨hheader, hsegment, hloads, before, hplaced.trans hleaves⟩

/-- The header is still in memory after `AllocatePages`. -/
theorem RoundPlaced.segment {header : ProgramHeader} {segment : BitVec 64}
    (h : RoundPlaced fw view file start headers table i header segment m)
    (hi : i < headers.ePhnum.toNat) :
    programHeaderAt (fw.memory m) (table + programHeaderSize * BitVec.ofNat 64 i) = header := by
  obtain ⟨hheader, -, -, before, hplaced⟩ := h
  rw [(hplaced.loading.leaves hplaced.leaves).segment hi, hheader]

/-- The allocation of round `i`. -/
theorem round_allocates (laws : LoadLaws fw view file) (hfile : LoadableFile file)
    (hi : i < headers.ePhnum.toNat) {header : ProgramHeader} (hload : header.pType = ptLoad) :
    Triple
      (Succeeding fun m => Loading fw view file start headers table i m ∧
        header = programHeaderAt (fw.memory m) (table + programHeaderSize * BitVec.ofNat 64 i))
      (callAllocatePages fw allocateAddress efiLoaderData header.pages header.pPaddr)
      fun allocated => Succeeding
        (RoundPlaced fw view file start headers table i header allocated.2) := by
  have hround : ∀ m, Loading fw view file start headers table i m →
      header = programHeaderAt (fw.memory m) (table + programHeaderSize * BitVec.ofNat 64 i) →
      header = fileSegment file i ∧ LoadsSegment file i := by
    intro m hloading hheader
    rw [hloading.segment hi] at hheader
    exact ⟨hheader, hloading.header_read ▸ hi, hheader ▸ hload⟩
  refine (succeeding_allocate_pages laws efiLoaderData header.pages header.pPaddr ?_).mono
    (fun _ hs => hs) fun allocated s hs hlog => ?_
  · rintro m ⟨hloading, hheader⟩
    obtain ⟨rfl, hloads⟩ := hround m hloading hheader
    exact hfile.aligned i hloads
  · obtain ⟨before, ⟨hloading, hheader⟩, hsegment, hpages, hcontents⟩ := hs hlog
    obtain ⟨rfl, hloads⟩ := hround before hloading hheader
    exact ⟨rfl, hsegment, hloads, before,
      hloading.placed (hfile.pages_fit i hloads) hpages hcontents⟩

/-- The read of round `i`. -/
theorem round_reads (laws : LoadLaws fw view file) (hfile : LoadableFile file) (handle : BitVec 64)
    {header : ProgramHeader} {segment : BitVec 64} :
    Triple
      (Succeeding fun m => RoundPlaced fw view file start headers table i header segment m ∧
        view.position m handle = header.pOffset)
      (callReadFile fw handle header.pFilesz segment) fun _ =>
        Succeeding (Loading fw view file start headers table (i + 1)) := by
  refine (succeeding_read_file laws handle header.pFilesz segment ?_).mono
    (fun _ hs => hs) fun _ s hs hlog => ?_
  · rintro m ⟨⟨rfl, rfl, hloads, before, hplaced⟩, -⟩ k hk
    exact hplaced.owned k (Nat.lt_of_lt_of_le hk (hfile.file_size_le i hloads))
  · obtain ⟨middle, ⟨⟨rfl, rfl, hloads, before, hplaced⟩, hposition⟩, hreads⟩ := hs hlog
    rw [hposition] at hreads
    exact hplaced.read (hfile.file_size_le i hloads) hreads

/-- The loop loads the segments that are left. -/
theorem loading_segments (laws : LoadLaws fw view file) (hfile : LoadableFile file) (start : M)
    (headers : ElfHeader) (handle table : BitVec 64) (i remaining : Nat)
    (hcount : i + remaining ≤ headers.ePhnum.toNat) :
    Triple (Succeeding (Loading fw view file start headers table i))
      (loadSegments fw handle table i remaining) fun _ =>
        Succeeding (Loading fw view file start headers table (i + remaining)) := by
  -- a round that loads its segment or skips it keeps `Loading`, for one index more
  induction remaining generalizing i with
  | zero => exact fun _ hs => hs
  | succ remaining ih =>
      have hi : i < headers.ePhnum.toNat := by omega
      have hnext := ih (i + 1) (by omega)
      rw [Nat.add_right_comm] at hnext
      refine (succeeding_look_at _).bind fun header => ?_
      split
      · next hload =>
          refine (round_allocates laws hfile hi hload).bind fun allocated =>
            (succeeding_look_at _).bind fun position =>
              (succeeding_set_position laws handle position).bind fun _ => ?_
          refine Triple.bind ((round_reads laws hfile handle).mono (fun s hs hlog => ?_)
            fun _ _ hs => hs) fun _ => hnext
          obtain ⟨before, ⟨hplaced, hlooked⟩, hleaves, hposition⟩ := hs hlog
          rw [hplaced.segment hi] at hlooked
          exact ⟨hplaced.trans hleaves, hposition.trans hlooked⟩
      · next hload =>
          refine hnext.mono (fun s hs hlog => ?_) fun _ _ hs => hs
          obtain ⟨hloading, hheader⟩ := hs hlog
          rw [hloading.segment hi] at hheader
          -- a skipped header is none of a segment to load
          refine { hloading with loaded := fun j hj hloads => ?_ }
          rcases Nat.lt_succ_iff_lt_or_eq.mp hj with hbefore | rfl
          · exact hloading.loaded j hbefore hloads
          · exact absurd (hheader ▸ hloads.load) hload

/-! ## `GetKernelEntry` -/

/-- `GetVolume` leaves the memory that is held. -/
theorem leaves_get_volume (laws : LoadLaws fw view file) (start : M) (image : BitVec 64) :
    Triple (Succeeding (Leaves fw view start)) (getVolume fw image) fun _ =>
      Succeeding (Leaves fw view start) := by
  refine (succeeding_other (laws.handleProtocol image)).bind fun interface =>
    (succeeding_look_at _).bind fun device => ?_
  refine (succeeding_other (laws.libOpenRoot device)).mono (fun _ hs => hs) fun _ s hs hlog => ?_
  obtain ⟨middle, ⟨⟨before, hbefore, hfirst⟩, -⟩, hsecond⟩ := hs hlog
  exact (hbefore.trans hfirst).trans hsecond

/-- `GetKernelEntry` reads the header of the file into its local variable. -/
theorem header_read (laws : LoadLaws fw view file) {stack : BitVec 64}
    (hstack : ∀ k < 64, view.held start (stack + BitVec.ofNat 64 k)) (handle : BitVec 64) :
    Triple (Succeeding fun m => Leaves fw view start m ∧ view.position m handle = 0)
      (callReadFile fw handle elfHeaderSize stack) fun _ =>
        Succeeding fun m => Grows view start m ∧
          elfHeaderAt (fw.memory m) stack = elfHeaderAt file 0 := by
  refine (succeeding_read_file laws handle elfHeaderSize stack ?_).mono
    (fun _ hs => hs) fun _ s hs hlog => ?_
  · rintro m ⟨hleaves, -⟩ k hk
    exact hleaves.held _ (hstack k hk)
  · obtain ⟨before, ⟨hleaves, hposition⟩, hreads⟩ := hs hlog
    rw [hposition] at hreads
    exact ⟨hleaves.toGrows.trans hreads.toGrows, elf_header_copied hreads.inside⟩

/-- The program headers of the file are read into the pool, which starts the loop. -/
theorem table_read (laws : LoadLaws fw view file) (hfile : LoadableFile file)
    (handle table : BitVec 64) :
    Triple
      (Succeeding fun m => headers = elfHeaderAt file 0 ∧ Grows view start m ∧
        (∀ k < headers.loadSize.toNat, view.held m (table + BitVec.ofNat 64 k)) ∧
        view.position m handle = headers.ePhoff)
      (callReadFile fw handle headers.loadSize table) fun _ =>
        Succeeding (Loading fw view file start headers table 0) := by
  refine (succeeding_read_file laws handle headers.loadSize table ?_).mono
    (fun _ hs => hs) fun _ s hs hlog => ?_
  · exact fun m hm => hm.2.2.1
  · obtain ⟨before, ⟨hheader, hgrows, hheld, hposition⟩, hreads⟩ := hs hlog
    have hsize : headers.loadSize.toNat = 56 * headers.ePhnum.toNat :=
      load_size_to_nat (hheader ▸ hfile.entry_size)
    rw [hposition, hsize] at hreads
    rw [hsize] at hheld
    exact ⟨hheader, hgrows.trans hreads.toGrows, fun k hk => hreads.held _ (hheld k hk),
      hreads.inside, fun j hj => absurd hj (Nat.not_lt_zero j)⟩

/-- After a good header, when all calls succeed, every segment is loaded. -/
theorem load_image_loads (laws : LoadLaws fw view file) (hfile : LoadableFile file) (start : M)
    (handle : BitVec 64) (headers : ElfHeader) (status : EfiStatus) :
    Triple (Succeeding fun m => Grows view start m ∧ headers = elfHeaderAt file 0)
      (loadImage fw handle headers status) fun result =>
        Succeeding fun m => result = .ok (status, (elfHeaderAt file 0).eEntry) ∧
          ∀ i, LoadsSegment file i → SegmentLoaded fw view file start i m := by
  refine (succeeding_allocate_pool laws efiLoaderData headers.loadSize).bind fun allocated =>
    (succeeding_set_position laws handle headers.ePhoff).bind fun _ =>
      succeeding_use_param (fun m hm => ?_) ?_
  · obtain ⟨middle, ⟨hset, -⟩, -⟩ := hm
    exact hset
  refine Triple.bind ((table_read laws hfile handle allocated.2).mono (fun s hs hlog => ?_)
    fun _ _ hs => hs) fun _ => (loading_segments laws hfile start headers handle allocated.2 0
      headers.ePhnum.toNat (by omega)).bind fun _ => ?_
  · obtain ⟨middle, ⟨-, before, ⟨hgrows, hheader⟩, hpool⟩, hleaves, hposition⟩ := hs hlog
    exact ⟨hheader, (hgrows.trans hpool.toGrows).trans hleaves.toGrows,
      fun k hk => hleaves.held _ (hpool.owned k hk), hposition⟩
  · refine Triple.pure fun s hs hlog => ?_
    have hloading := hs hlog
    obtain rfl := hloading.header_read
    refine ⟨rfl, fun i hloads => hloading.loaded i ?_ hloads⟩
    rw [Nat.zero_add]
    exact hloads.index_lt

/-- After all calls have succeeded, every segment is loaded. -/
theorem kernel_entry_loads (laws : LoadLaws fw view file) (hfile : LoadableFile file)
    (image : BitVec 64) {stack : BitVec 64} (status : EfiStatus)
    (hstack : ∀ k < 64, view.held start (stack + BitVec.ofNat 64 k)) :
    Triple (Succeeding (Leaves fw view start)) (getKernelEntry fw image stack status) fun result =>
      Succeeding fun m => result = .ok (status, (elfHeaderAt file 0).eEntry) ∧
        ∀ i, LoadsSegment file i → SegmentLoaded fw view file start i m := by
  refine (leaves_get_volume laws start image).bind fun volume =>
    (succeeding_open_kernel laws volume).bind fun opened =>
      succeeding_use_param (fun m hm => hm.1) ?_
  refine Triple.bind ((header_read laws hstack opened.2).mono (fun s hs hlog => ?_)
    fun _ _ hs => hs) fun _ => (succeeding_look_at _).bind fun headers => ?_
  · obtain ⟨-, before, hbefore, hleaves, hposition⟩ := hs hlog
    exact ⟨hbefore.trans hleaves, hposition⟩
  split
  · refine (load_image_loads laws hfile start opened.2 headers status).mono
      (fun s hs hlog => ?_) fun _ _ hs => hs
    obtain ⟨⟨hgrows, hread⟩, hheader⟩ := hs hlog
    exact ⟨hgrows, hheader.trans hread⟩
  · next hbad =>
      refine Triple.pure fun s hs hlog => ?_
      obtain ⟨⟨-, hread⟩, hheader⟩ := hs hlog
      exact absurd (hheader.trans hread ▸ hfile.is_kernel) hbad

/-- When all calls of `GetKernelEntry` succeed, it returns the entry point, and every segment begins
with the bytes of the file. The rest of the segments is 0 exactly when the pages held 0 there before
they were handed out, since no call clears it. -/
theorem kernel_image_loaded_iff {fw : Firmware M} {view : LoadView M} {file : ByteMemory}
    (laws : LoadLaws fw view file) (hfile : LoadableFile file) (image stack : BitVec 64)
    (status : EfiStatus) (start : M)
    (hstack : ∀ k < 64, view.held start (stack + BitVec.ofNat 64 k))
    (hsucceeded : ∀ call ∈ (getKernelEntry fw image stack status ⟨start, []⟩).2.log,
      call.succeeded = true) :
    (getKernelEntry fw image stack status ⟨start, []⟩).1 =
        .ok (status, (elfHeaderAt file 0).eEntry) ∧
      FileBytesLoaded file
        (fw.memory (getKernelEntry fw image stack status ⟨start, []⟩).2.machine) ∧
      (ImageLoaded file
          (fw.memory (getKernelEntry fw image stack status ⟨start, []⟩).2.machine) ↔
        ZeroTails file (view.prior start)) := by
  obtain ⟨hresult, hloaded⟩ := kernel_entry_loads laws hfile image status hstack ⟨start, []⟩
    (fun _ => Leaves.refl start) hsucceeded
  have hbytes : FileBytesLoaded file
      (fw.memory (getKernelEntry fw image stack status ⟨start, []⟩).2.machine) := by
    intro i hloads k hk
    have hsize := hfile.file_size_le i hloads
    rw [(hloaded i hloads).bytes k (by omega), if_pos hk]
  have htails : ∀ i, LoadsSegment file i → ∀ k, (fileSegment file i).pFilesz.toNat ≤ k →
      k < (fileSegment file i).pMemsz.toNat →
      fw.memory (getKernelEntry fw image stack status ⟨start, []⟩).2.machine
          ((fileSegment file i).pPaddr + BitVec.ofNat 64 k) =
        view.prior start ((fileSegment file i).pPaddr + BitVec.ofNat 64 k) := by
    intro i hloads k hlow hhigh
    rw [(hloaded i hloads).bytes k hhigh, if_neg (by omega)]
  refine ⟨hresult, hbytes, ?_⟩
  constructor
  · intro himage i hloads k hlow hhigh
    rw [← htails i hloads k hlow hhigh]
    exact himage.zero_tails i hloads k hlow hhigh
  · intro hprior
    refine ⟨hbytes, fun i hloads k hlow hhigh => ?_⟩
    rw [htails i hloads k hlow hhigh]
    exact hprior i hloads k hlow hhigh

/-! ## A firmware that hands out pages as they are -/

/-- A machine with the ranges that belong to the bootloader, and a file open at a position. -/
structure RangeMachine where
  mem : ByteMemory
  used : List (BitVec 64 × Nat)
  position : BitVec 64

/-- Hand out a range if no byte of it is in use. -/
def RangeMachine.allocate (m : RangeMachine) (start : BitVec 64) (len : Nat) :
    (EfiStatus × BitVec 64) × RangeMachine :=
  if ∀ range ∈ m.used, Disjoint range.1 range.2 start len then
    ((efiSuccess, start), { m with used := (start, len) :: m.used })
  else ((efiNotFound, start), m)

/-- An `ET_EXEC` file for x86-64 with one `PT_LOAD` segment at 1 MiB: 4 bytes of the file, and 8
bytes in memory. -/
def tailFile : ByteMemory := fun position =>
  [0x7f, 0x45, 0x4c, 0x46, 2, 1, 1, 0, 0, 0, 0, 0, 0, 0, 0, 0,
    2, 0, 62, 0, 1, 0, 0, 0, 0, 0, 0x10, 0, 0, 0, 0, 0,
    64, 0, 0, 0, 0, 0, 0, 0, 0, 0, 0, 0, 0, 0, 0, 0,
    0, 0, 0, 0, 64, 0, 56, 0, 1, 0, 0, 0, 0, 0, 0, 0,
    1, 0, 0, 0, 7, 0, 0, 0, 120, 0, 0, 0, 0, 0, 0, 0,
    0, 0, 0x10, 0, 0, 0, 0, 0, 0, 0, 0x10, 0, 0, 0, 0, 0,
    4, 0, 0, 0, 0, 0, 0, 0, 8, 0, 0, 0, 0, 0, 0, 0,
    0, 0x10, 0, 0, 0, 0, 0, 0, 0xf4, 0xeb, 0xfd, 0x90].getD position.toNat 0

/-- Memory that is handed out keeps its contents. -/
def rangeFirmware : Firmware RangeMachine where
  memory m := m.mem
  key _ := 0
  print := pure ()
  handleProtocol _ := pure 1
  deviceHandle _ _ := 1
  libOpenRoot _ := pure 1
  locateGop := pure (efiSuccess, 1)
  gopMode _ _ := 0
  gopFrameBuffer _ _ := ⟨0x80000000, 0x300000, 1024, 768, 1024⟩
  queryMode _ _ := pure efiSuccess
  setMode _ _ := pure efiSuccess
  getMemoryMap _ _ := pure ⟨efiSuccess, 40, 0, 40⟩
  poolType := efiLoaderData
  allocatePool _ size m := m.allocate 0x7000 size.toNat
  allocatePages _ _ pages address m := m.allocate address (pageBytes pages)
  openKernel _ m := ((efiSuccess, 1), { m with position := 0 })
  setPosition _ position m := (efiSuccess, { m with position := position })
  readFile _ size buffer m :=
    ((efiSuccess, size),
      { m with
        mem := fun byte =>
          if (byte - buffer).toNat < size.toNat then tailFile (m.position + (byte - buffer))
          else m.mem byte
        position := m.position + size })
  exitBootServices _ _ := pure efiSuccess

def rangeView : LoadView RangeMachine where
  held m byte := ∃ range ∈ m.used, (byte - range.1).toNat < range.2
  prior m := m.mem
  position m _ := m.position

/-- A successful allocation of the example gives the pages asked for. -/
theorem range_allocates {m : RangeMachine} {start : BitVec 64} {len : Nat}
    (hsuccess : efiError (m.allocate start len).1.1 = false) :
    (m.allocate start len).1.2 = start ∧
      Allocates rangeFirmware rangeView start len m (m.allocate start len).2 ∧
      (m.allocate start len).2.mem = m.mem := by
  unfold RangeMachine.allocate at hsuccess ⊢
  split at hsuccess
  · next hfree =>
      rw [if_pos hfree]
      refine ⟨rfl, ?_, rfl⟩
      constructor
      case toLeaves =>
        refine ⟨⟨?_, fun _ _ => rfl⟩, fun _ _ => rfl⟩
        rintro byte ⟨range, hmem, hrange⟩
        exact ⟨range, List.mem_cons_of_mem _ hmem, hrange⟩
      case free =>
        rintro k hk ⟨range, hmem, hrange⟩
        have houtside := (hfree range hmem).offset_le hk
        omega
      case owned =>
        intro k hk
        refine ⟨(start, len), List.mem_cons_self, ?_⟩
        have hle := Nat.mod_le k (2 ^ 64)
        have hoffset : (start + BitVec.ofNat 64 k - start).toNat = k % 2 ^ 64 := by bv_omega
        rw [hoffset]
        omega
  · have herror : efiError efiNotFound = true := by decide
    exact absurd (herror.symm.trans hsuccess) (by decide)

/-- The firmware of the example keeps the laws. -/
theorem range_firmware_laws : LoadLaws rangeFirmware rangeView tailFile := by
  constructor
  case handleProtocol => exact fun _ m => Leaves.refl m
  case libOpenRoot => exact fun _ m => Leaves.refl m
  case openKernel => exact fun _ m _ => ⟨⟨⟨fun _ h => h, fun _ _ => rfl⟩, fun _ _ => rfl⟩, rfl⟩
  case setPosition => exact fun _ _ m _ => ⟨⟨⟨fun _ h => h, fun _ _ => rfl⟩, fun _ _ => rfl⟩, rfl⟩
  case allocatePool =>
    intro _ size m hsuccess
    obtain ⟨hstart, hallocates, -⟩ := range_allocates hsuccess
    exact hstart.symm ▸ hallocates
  case allocatePages =>
    intro _ pages address m _ hsuccess
    obtain ⟨hstart, hallocates, hmem⟩ := range_allocates hsuccess
    exact ⟨hstart, hallocates, fun k _ => congrFun hmem _⟩
  case readFile =>
    intro _ size buffer m hheld _
    constructor
    case toGrows =>
      refine ⟨fun _ h => h, fun byte hfree => ?_⟩
      refine if_neg fun hinside => hfree ?_
      have hbyte : buffer + BitVec.ofNat 64 (byte - buffer).toNat = byte := by bv_omega
      exact hbyte ▸ hheld (byte - buffer).toNat hinside
    case inside =>
      intro k hk
      have hlt := size.isLt
      have hoffset : buffer + BitVec.ofNat 64 k - buffer = BitVec.ofNat 64 k := by bv_omega
      refine (if_pos ?_).trans ?_
      · rw [offset_to_nat buffer (by omega)]
        exact hk
      · rw [hoffset]
        rfl
    case outside => exact fun byte hout _ => if_neg (Nat.not_lt_of_le hout)

/-- The file of the example can be loaded. -/
theorem tail_file_loadable : LoadableFile tailFile := by
  have hcount : (elfHeaderAt tailFile 0).ePhnum.toNat = 1 := by decide +kernel
  have hfirst : ∀ i, LoadsSegment tailFile i → i = 0 := by
    intro i hloads
    have hlt := hloads.index_lt
    omega
  constructor
  case is_kernel => decide +kernel
  case entry_size => decide +kernel
  case aligned =>
    intro i hloads
    rw [hfirst i hloads]
    decide +kernel
  case file_size_le =>
    intro i hloads
    rw [hfirst i hloads]
    decide +kernel
  case pages_fit =>
    intro i hloads
    rw [hfirst i hloads]
    decide +kernel

/-- All memory holds the same byte, and the bootloader has a stack of one page. -/
def rangeStart (byte : BitVec 8) : RangeMachine where
  mem _ := byte
  used := [(0x9000, 0x1000)]
  position := 0

/-- The firmware of the example holds the stack at the beginning. -/
theorem range_start_stack (byte : BitVec 8) :
    ∀ k < 64, rangeView.held (rangeStart byte) (0x9100 + BitVec.ofNat 64 k) := by
  intro k hk
  refine ⟨(0x9000, 0x1000), List.mem_singleton_self _, ?_⟩
  have hoffset : (0x9100 + BitVec.ofNat 64 k - 0x9000).toNat = 0x100 + k := by bv_omega
  rw [hoffset]
  omega

/-- In memory that was 0 the image is right. -/
theorem zeroed_kernel_image_loaded :
    ImageLoaded tailFile (rangeFirmware.memory
      (getKernelEntry rangeFirmware 1 0x9100 efiSuccess ⟨rangeStart 0, []⟩).2.machine) :=
  (kernel_image_loaded_iff range_firmware_laws tail_file_loadable 1 0x9100 efiSuccess (rangeStart 0)
    (range_start_stack 0) (by decide +kernel)).2.2.mpr fun _ _ _ _ _ => rfl

/-- In memory that held other bytes, all calls succeed and the entry point is returned, but the
segment ends with what was there before. -/
theorem kernel_image_tail_not_zero :
    LoadLaws rangeFirmware rangeView tailFile ∧ LoadableFile tailFile ∧
      (∀ k < 64, rangeView.held (rangeStart 0xaa) (0x9100 + BitVec.ofNat 64 k)) ∧
      (∀ call ∈ (getKernelEntry rangeFirmware 1 0x9100 efiSuccess ⟨rangeStart 0xaa, []⟩).2.log,
        call.succeeded = true) ∧
      (getKernelEntry rangeFirmware 1 0x9100 efiSuccess ⟨rangeStart 0xaa, []⟩).1 =
        .ok (efiSuccess, 0x100000) ∧
      ¬ ImageLoaded tailFile (rangeFirmware.memory
        (getKernelEntry rangeFirmware 1 0x9100 efiSuccess ⟨rangeStart 0xaa, []⟩).2.machine) := by
  refine ⟨range_firmware_laws, tail_file_loadable, range_start_stack 0xaa, by decide +kernel,
    by decide +kernel, ?_⟩
  intro himage
  have hloads : LoadsSegment tailFile 0 := ⟨by decide +kernel, by decide +kernel⟩
  have hzero := himage.zero_tails 0 hloads 4 (by decide +kernel) (by decide +kernel)
  have htail : rangeFirmware.memory
      (getKernelEntry rangeFirmware 1 0x9100 efiSuccess ⟨rangeStart 0xaa, []⟩).2.machine
      ((fileSegment tailFile 0).pPaddr + BitVec.ofNat 64 4) = 0xaa := by
    decide +kernel
  rw [htail] at hzero
  exact absurd hzero (by decide)

end SiStultum
