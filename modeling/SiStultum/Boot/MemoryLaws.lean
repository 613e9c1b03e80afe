import SiStultum.Boot.Loader

/-!
# What the firmware promises about memory and the file

A `LoadView` names what the bootloader cannot see of a machine: the bytes that belong to the
bootloader, the contents that the other bytes will have when they are handed out, and the position
of each file. `LoadLaws` states what a successful call does to them. Nothing is promised about
the contents of the pages that `AllocatePages` hands out.

`Succeeding` is a precondition that holds unless some call has failed, and `succeeding_call` is the
rule for one call.
-/

namespace SiStultum

open Hoare

/-- The parts of a machine that the services of the firmware are specified by. -/
structure LoadView (M : Type) where
  /-- The byte belongs to the bootloader: its stack, and what it has allocated. -/
  held : M → BitVec 64 → Prop
  /-- What a byte that does not belong to the bootloader holds when it is handed out. -/
  prior : M → ByteMemory
  /-- The position of a file handle. -/
  position : M → BitVec 64 → BitVec 64

variable {M : Type}

/-- The bootloader loses no byte, and the contents of the bytes it does not have are as before. -/
structure Grows (view : LoadView M) (before after : M) : Prop where
  held : ∀ byte, view.held before byte → view.held after byte
  prior : ∀ byte, ¬ view.held after byte → view.prior after byte = view.prior before byte

/-- The bytes of the bootloader keep their contents as well. -/
structure Leaves (fw : Firmware M) (view : LoadView M) (before after : M) : Prop
    extends Grows view before after where
  memory : ∀ byte, view.held before byte → fw.memory after byte = fw.memory before byte

/-- The `len` bytes from `start` on are handed to the bootloader. -/
structure Allocates (fw : Firmware M) (view : LoadView M) (start : BitVec 64) (len : Nat)
    (before after : M) : Prop extends Leaves fw view before after where
  free : ∀ k < len, ¬ view.held before (start + BitVec.ofNat 64 k)
  owned : ∀ k < len, view.held after (start + BitVec.ofNat 64 k)

/-- `len` bytes of the file from `position` on are read into the buffer. -/
structure FileRead (fw : Firmware M) (view : LoadView M) (file : ByteMemory)
    (position buffer : BitVec 64) (len : Nat) (before after : M) : Prop
    extends Grows view before after where
  inside : ByteMemory.Copied file position (fw.memory after) buffer len
  outside : ∀ byte, len ≤ (byte - buffer).toNat → view.held before byte →
    fw.memory after byte = fw.memory before byte

/-- The number of bytes in `n` pages. -/
def pageBytes (pages : BitVec 64) : Nat :=
  4096 * pages.toNat

/-- What the services promise when they succeed, for a kernel file with the bytes `file`. -/
structure LoadLaws (fw : Firmware M) (view : LoadView M) (file : ByteMemory) : Prop where
  handleProtocol : ∀ image m, Leaves fw view m (fw.handleProtocol image m).2
  libOpenRoot : ∀ device m, Leaves fw view m (fw.libOpenRoot device m).2
  openKernel : ∀ volume m, efiError (fw.openKernel volume m).1.1 = false →
    Leaves fw view m (fw.openKernel volume m).2 ∧
      view.position (fw.openKernel volume m).2 (fw.openKernel volume m).1.2 = 0
  setPosition : ∀ handle position m, efiError (fw.setPosition handle position m).1 = false →
    Leaves fw view m (fw.setPosition handle position m).2 ∧
      view.position (fw.setPosition handle position m).2 handle = position
  allocatePool : ∀ type size m, efiError (fw.allocatePool type size m).1.1 = false →
    Allocates fw view (fw.allocatePool type size m).1.2 size.toNat m
      (fw.allocatePool type size m).2
  allocatePages : ∀ memoryType pages address m, address.toNat % 4096 = 0 →
    efiError (fw.allocatePages allocateAddress memoryType pages address m).1.1 = false →
    (fw.allocatePages allocateAddress memoryType pages address m).1.2 = address ∧
      Allocates fw view address (pageBytes pages) m
        (fw.allocatePages allocateAddress memoryType pages address m).2 ∧
      ∀ k < pageBytes pages,
        fw.memory (fw.allocatePages allocateAddress memoryType pages address m).2
            (address + BitVec.ofNat 64 k) =
          view.prior m (address + BitVec.ofNat 64 k)
  readFile : ∀ handle size buffer m,
    (∀ k < size.toNat, view.held m (buffer + BitVec.ofNat 64 k)) →
    efiError (fw.readFile handle size buffer m).1.1 = false →
    FileRead fw view file (view.position m handle) buffer
      (fw.readFile handle size buffer m).1.2.toNat m (fw.readFile handle size buffer m).2

/-! ## Composition -/

variable {fw : Firmware M} {view : LoadView M} {first second third : M}

/-- No memory is taken. -/
theorem Grows.refl (m : M) : Grows view m m :=
  ⟨fun _ h => h, fun _ _ => rfl⟩

/-- Memory is taken twice. -/
theorem Grows.trans (h : Grows view first second) (hnext : Grows view second third) :
    Grows view first third := by
  constructor
  case held => exact fun byte hheld => hnext.held byte (h.held byte hheld)
  case prior =>
    intro byte hfree
    have hbefore : ¬ view.held second byte := fun hheld => hfree (hnext.held byte hheld)
    rw [hnext.prior byte hfree, h.prior byte hbefore]

/-- Nothing is changed. -/
theorem Leaves.refl (m : M) : Leaves fw view m m :=
  { Grows.refl m with memory := fun _ _ => rfl }

/-- Memory is left alone twice. -/
theorem Leaves.trans (h : Leaves fw view first second) (hnext : Leaves fw view second third) :
    Leaves fw view first third := by
  refine { h.toGrows.trans hnext.toGrows with memory := ?_ }
  intro byte hheld
  rw [hnext.memory byte (h.held byte hheld), h.memory byte hheld]

/-- A copy in the bytes of the bootloader stays a copy. -/
theorem Leaves.copied (h : Leaves fw view first second) {file : ByteMemory}
    {source start : BitVec 64} {len : Nat}
    (hheld : ∀ k < len, view.held first (start + BitVec.ofNat 64 k))
    (hcopied : ByteMemory.Copied file source (fw.memory first) start len) :
    ByteMemory.Copied file source (fw.memory second) start len := by
  intro k hk
  rw [h.memory _ (hheld k hk), hcopied k hk]

/-! ## Calls that succeed -/

/-- A call that `getKernelEntry` relies on succeeded, and a read returned all bytes asked for. -/
def LoaderCall.succeeded : LoaderCall → Bool
  | .openKernel status => !efiError status
  | .setPosition status _ => !efiError status
  | .allocatePool status _ => !efiError status
  | .allocatePages status _ _ _ => !efiError status
  | .readFile status asked returned _ => !efiError status && returned == asked
  | _ => true

/-- `pred` holds of the machine, unless some call of the log has failed. -/
def Succeeding (pred : M → Prop) (s : LoaderState M) : Prop :=
  (∀ call ∈ s.log, call.succeeded = true) → pred s.machine

/-- One call, when it succeeds, leads from `pre` to `post`. -/
theorem succeeding_call {α : Type} {op : StateM M α} {entry : M → α → M → LoaderCall}
    {pre : M → Prop} {post : α → M → Prop}
    (h : ∀ m, pre m → (entry m (op m).1 (op m).2).succeeded = true → post (op m).1 (op m).2) :
    Triple (Succeeding pre) (callFirmware op entry) fun answer => Succeeding (post answer) := by
  intro s hs hlog
  have hbefore : ∀ call ∈ s.log, call.succeeded = true :=
    fun call hmem => hlog call (List.mem_append_left _ hmem)
  exact h s.machine (hs hbefore) (hlog _ (List.mem_append_right _ (List.mem_singleton_self _)))

/-- A call whose success is that its status is no error. -/
theorem succeeding_status {α : Type} {op : StateM M α} {entry : M → α → M → LoaderCall}
    (status : α → EfiStatus)
    (hentry : ∀ before answer after,
      (entry before answer after).succeeded = !efiError (status answer))
    {pre : M → Prop} {post : α → M → Prop}
    (h : ∀ m, pre m → efiError (status (op m).1) = false → post (op m).1 (op m).2) :
    Triple (Succeeding pre) (callFirmware op entry) fun answer => Succeeding (post answer) := by
  refine succeeding_call fun m hm hsucceeded => h m hm ?_
  rwa [hentry, Bool.not_eq_true'] at hsucceeded

/-- Looking at the machine tells what was seen. -/
theorem succeeding_look_at {α : Type} {pre : M → Prop} (see : M → α) :
    Triple (Succeeding pre) (lookAt see) fun value =>
      Succeeding fun m => pre m ∧ value = see m :=
  fun _ hs hlog => ⟨hs hlog, rfl⟩

variable {file : ByteMemory} {pre : M → Prop}

/-- A call that leaves the memory alone, in a run that has not failed. -/
theorem succeeding_other {α : Type} {op : StateM M α}
    (hop : ∀ m, Leaves fw view m (op m).2) :
    Triple (Succeeding pre) (callOther op) fun _ =>
      Succeeding fun m => ∃ before, pre before ∧ Leaves fw view before m :=
  succeeding_call fun m hm _ => ⟨m, hm, hop m⟩

/-- The file is opened at its start. -/
theorem succeeding_open_kernel (laws : LoadLaws fw view file) (volume : BitVec 64) :
    Triple (Succeeding pre) (callOpenKernel fw volume) fun opened =>
      Succeeding fun m => efiError opened.1 = false ∧
        ∃ before, pre before ∧ Leaves fw view before m ∧ view.position m opened.2 = 0 :=
  succeeding_status Prod.fst (fun _ _ _ => rfl) fun m hm hstatus =>
    ⟨hstatus, m, hm, laws.openKernel volume m hstatus⟩

/-- `SetPosition`, in a run that has not failed. -/
theorem succeeding_set_position (laws : LoadLaws fw view file) (handle position : BitVec 64) :
    Triple (Succeeding pre) (callSetPosition fw handle position) fun _ =>
      Succeeding fun m => ∃ before, pre before ∧ Leaves fw view before m ∧
        view.position m handle = position :=
  succeeding_status id (fun _ _ _ => rfl) fun m hm hstatus =>
    ⟨m, hm, laws.setPosition handle position m hstatus⟩

/-- `AllocatePool`, in a run that has not failed. -/
theorem succeeding_allocate_pool (laws : LoadLaws fw view file) (type : BitVec 32)
    (size : BitVec 64) :
    Triple (Succeeding pre) (callAllocatePool fw type size) fun allocated =>
      Succeeding fun m => efiError allocated.1 = false ∧
        ∃ before, pre before ∧ Allocates fw view allocated.2 size.toNat before m :=
  succeeding_status Prod.fst (fun _ _ _ => rfl) fun m hm hstatus =>
    ⟨hstatus, m, hm, laws.allocatePool type size m hstatus⟩

/-- The pages are handed out at the address asked for, with their prior contents. -/
theorem succeeding_allocate_pages (laws : LoadLaws fw view file) (memoryType : BitVec 32)
    (pages address : BitVec 64) (haligned : ∀ m, pre m → address.toNat % 4096 = 0) :
    Triple (Succeeding pre) (callAllocatePages fw allocateAddress memoryType pages address)
      fun allocated => Succeeding fun m => ∃ before, pre before ∧ allocated.2 = address ∧
        Allocates fw view address (pageBytes pages) before m ∧
        ∀ k < pageBytes pages, fw.memory m (address + BitVec.ofNat 64 k) =
          view.prior before (address + BitVec.ofNat 64 k) :=
  succeeding_status Prod.fst (fun _ _ _ => rfl) fun m hm hstatus =>
    ⟨m, hm, laws.allocatePages memoryType pages address m (haligned m hm) hstatus⟩

/-- The variable of an output parameter may be used after a call that succeeded. -/
theorem succeeding_use_param {α : Type} {answer : EfiStatus × BitVec 64} {fault : LoaderFault}
    {next : BitVec 64 → Loader M (Except LoaderFault α)}
    {post : Except LoaderFault α → M → Prop} (hset : ∀ m, pre m → efiError answer.1 = false)
    (hnext : Triple (Succeeding pre) (next answer.2) fun result => Succeeding (post result)) :
    Triple (Succeeding pre) (useParam answer fault next) fun result =>
      Succeeding (post result) := by
  unfold useParam
  split
  · next herror =>
      refine Triple.pure fun s hs hlog => ?_
      have hsuccess := hset s.machine (hs hlog)
      rw [herror] at hsuccess
      cases hsuccess
  · exact hnext

/-- A read into memory of the bootloader fills the buffer with bytes of the file. -/
theorem succeeding_read_file (laws : LoadLaws fw view file) (handle size buffer : BitVec 64)
    (hheld : ∀ m, pre m → ∀ k < size.toNat, view.held m (buffer + BitVec.ofNat 64 k)) :
    Triple (Succeeding pre) (callReadFile fw handle size buffer) fun _ =>
      Succeeding fun m => ∃ before, pre before ∧
        FileRead fw view file (view.position before handle) buffer size.toNat before m := by
  refine succeeding_call fun m hm hsucceeded => ?_
  obtain ⟨hstatus, hreturned⟩ : efiError (fw.readFile handle size buffer m).1.1 = false ∧
      (fw.readFile handle size buffer m).1.2 = size := by
    simpa [LoaderCall.succeeded] using hsucceeded
  have hreads := laws.readFile handle size buffer m (hheld m hm) hstatus
  rw [hreturned] at hreads
  exact ⟨m, hm, hreads⟩

end SiStultum
