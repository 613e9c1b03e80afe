import SiStultum.Boot.ExitKey

/-!
# A load that fails

`GetKernelEntry` reports a failure through `*Status`, and `efi_main` calls the kernel unless the
report is an error. Of all that can go wrong only one thing is reported, a header that does not
pass the check. `LoadAnswered` follows the answers of the firmware in the order of the calls and
says where none of them may be a failure; `failed_load_stops_iff` is that a run of `efi_main` in
which calls fail ends as it should exactly then.
-/

namespace SiStultum

variable {M : Type}

def efiDeviceError : EfiStatus := 0x8000000000000007

/-! ## What should hold of a failed load -/

/-- The firmware reported an error, or read fewer bytes than it was asked for. -/
def LoaderCall.failed : LoaderCall → Bool
  | .openKernel status => efiError status
  | .setPosition status _ => efiError status
  | .allocatePool status _ => efiError status
  | .allocatePages status _ _ _ => efiError status
  | .readFile status asked returned _ => efiError status || decide (returned < asked)
  | _ => false

/-- Some call failed. -/
def SomeFailed (calls : List LoaderCall) : Prop :=
  ∃ call ∈ calls, call.failed = true

/-- The call reads a byte into the pages from `address` on. -/
def LoaderCall.readsInto (pages address : BitVec 64) : LoaderCall → Prop
  | .readFile _ asked _ buffer =>
      ∃ k < asked.toNat, (buffer + BitVec.ofNat 64 k - address).toNat < 4096 * pages.toNat
  | _ => False

/-- After a failed `AllocatePages` nothing is read into the pages that were asked for. -/
def NoReadIntoFailedPages (calls : List LoaderCall) : Prop :=
  ∀ before status pages address key after,
    calls = before ++ .allocatePages status pages address key :: after → efiError status = true →
      ∀ call ∈ after, ¬ call.readsInto pages address

/-- The calls that a program makes when it starts in a state. -/
def callsFrom {α : Type} (prog : Loader M α) (s : LoaderState M) : List LoaderCall :=
  (prog s).2.log.drop s.log.length

/-- The part of `efi_main` before `enterKernel`: what it passes on to it, `some none` when it ends
in the endless loop, and `none` when the fuel runs out. -/
def efiPrepare (fw : Firmware M) (fuel : Nat) :
    Loader M (Option (Option (FrameBuffer × LoadedMap))) := do
  callOther fw.print
  let graphics ← initializeGop fw
  match graphics with
  | .error _ =>
      callOther fw.print
      return some none
  | .ok frameBuffer =>
      callOther fw.print
      let loaded ← getMemoryMapLoop fw fuel efiDescriptorSize
      match loaded with
      | none => return none
      | some none =>
          callOther fw.print
          return some none
      | some (some map) => return some (some (frameBuffer, map))

/-- The state in which `enterKernel` calls `GetKernelEntry` when it starts in `s`. -/
def loadStart (fw : Firmware M) (s : LoaderState M) : LoaderState M :=
  (callOther fw.print s).2

/-- `GetKernelEntry` has returned, with an error in `*Status`. -/
def ReportsError (result : Except LoaderFault (EfiStatus × BitVec 64)) : Prop :=
  ∃ status kernelEntry, result = .ok (status, kernelEntry) ∧ efiError status = true

/-- When a call of `GetKernelEntry`, started in `s`, fails, then it reports an error and `efi_main`,
which was started in `start`, ends in its endless loop; and it reads nothing into pages that it did
not get. -/
structure FailedLoadStops (fw : Firmware M) (fuel : Nat) (image stack : BitVec 64)
    (start s : LoaderState M) : Prop where
  status_error : SomeFailed (callsFrom (getKernelEntry fw image stack efiSuccess) s) →
    ReportsError (getKernelEntry fw image stack efiSuccess s).1
  not_entered : SomeFailed (callsFrom (getKernelEntry fw image stack efiSuccess) s) →
    (efiMain fw fuel image stack start).1 = some .halted
  no_read : NoReadIntoFailedPages (callsFrom (getKernelEntry fw image stack efiSuccess) s)

/-! ## The answers of the firmware -/

/-- A `Read` that was asked for some bytes reports no error and has read all of them. -/
def ReadInFull (asked : BitVec 64) (answer : EfiStatus × BitVec 64) : Prop :=
  efiError answer.1 = false ∧ ¬ answer.2 < asked

/-- No answer to the calls for the segments from index `i` on is a failure. -/
def SegmentsAnswered (fw : Firmware M) (file programHeaders : BitVec 64) :
    (i remaining : Nat) → M → Prop
  | _, 0, _ => True
  | i, remaining + 1, m =>
      let addr := programHeaders + programHeaderSize * BitVec.ofNat 64 i
      let header := programHeaderAt (fw.memory m) addr
      if header.pType = ptLoad then
        let pages := fw.allocatePages allocateAddress efiLoaderData header.pages header.pPaddr m
        let position := (programHeaderAt (fw.memory pages.2) addr).pOffset
        let sought := fw.setPosition file position pages.2
        let read := fw.readFile file header.pFilesz pages.1.2 sought.2
        efiError pages.1.1 = false ∧ efiError sought.1 = false ∧
          ReadInFull header.pFilesz read.1 ∧
          SegmentsAnswered fw file programHeaders (i + 1) remaining read.2
      else SegmentsAnswered fw file programHeaders (i + 1) remaining m

/-- No answer to the calls for the program headers and the segments is a failure. -/
def ImageAnswered (fw : Firmware M) (file : BitVec 64) (headers : ElfHeader) (m : M) : Prop :=
  let pool := fw.allocatePool efiLoaderData headers.loadSize m
  let sought := fw.setPosition file headers.ePhoff pool.2
  let read := fw.readFile file headers.loadSize pool.1.2 sought.2
  efiError pool.1.1 = false ∧ efiError sought.1 = false ∧ ReadInFull headers.loadSize read.1 ∧
    SegmentsAnswered fw file pool.1.2 0 headers.ePhnum.toNat read.2

/-- The header in the memory of `Headers` after the first read. -/
def headerRead (fw : Firmware M) (file stack : BitVec 64) (m : M) : ElfHeader :=
  elfHeaderAt (fw.memory (fw.readFile file elfHeaderSize stack m).2) stack

/-- After the first read either the header in memory does not pass the check, or neither the read
nor any call after it fails. -/
def KernelAnswered (fw : Firmware M) (file stack : BitVec 64) (m : M) : Prop :=
  (headerRead fw file stack m).isKernel = false ∨
    ReadInFull elfHeaderSize (fw.readFile file elfHeaderSize stack m).1 ∧
      ImageAnswered fw file (headerRead fw file stack m)
        (fw.readFile file elfHeaderSize stack m).2

/-- The answer to `Open` in `GetKernelEntry`, and the machine after it. -/
def kernelOpened (fw : Firmware M) (image : BitVec 64) (m : M) :
    (EfiStatus × BitVec 64) × M :=
  let loadedImage := fw.handleProtocol image m
  let volume := fw.libOpenRoot (fw.deviceHandle loadedImage.1 loadedImage.2) loadedImage.2
  fw.openKernel volume.1 volume.2

/-- What the firmware has to answer to the calls of `GetKernelEntry` that begin on `m`: the file is
opened, and after that `KernelAnswered`. -/
def LoadAnswered (fw : Firmware M) (image stack : BitVec 64) (m : M) : Prop :=
  efiError (kernelOpened fw image m).1.1 = false ∧
    KernelAnswered fw (kernelOpened fw image m).1.2 stack (kernelOpened fw image m).2

/-! ## Calls that do not fail -/

/-- From `s` on the program makes some calls, and none of them fails exactly if `answers` holds. -/
def FailsUnless {α : Type} (prog : Loader M α) (s : LoaderState M) (answers : Prop) : Prop :=
  ∃ calls, (prog s).2.log = s.log ++ calls ∧ (¬ SomeFailed calls ↔ answers)

variable {fw : Firmware M} {s : LoaderState M} {answers : Prop}

/-- A failure in two lists of calls is one in either. -/
theorem some_failed_append {calls more : List LoaderCall} :
    SomeFailed (calls ++ more) ↔ SomeFailed calls ∨ SomeFailed more := by
  simp only [SomeFailed, List.mem_append, or_and_right, exists_or]

/-- The answers can be stated in another way. -/
theorem FailsUnless.iff {α : Type} {prog : Loader M α} {same : Prop}
    (h : FailsUnless prog s answers) (hsame : answers ↔ same) : FailsUnless prog s same := by
  obtain ⟨calls, hlog, hfailed⟩ := h
  exact ⟨calls, hlog, hfailed.trans hsame⟩

/-- Returning a value calls nothing. -/
theorem FailsUnless.pure {α : Type} (value : α) (s : LoaderState M) :
    FailsUnless (Pure.pure value) s True :=
  ⟨[], (List.append_nil s.log).symm, by simp [SomeFailed]⟩

/-- The answers to two programs in sequence: those to the first, and those to the second where the
first has led. -/
theorem FailsUnless.bind {α β : Type} {prog : Loader M α} {next : α → Loader M β}
    {later : Prop} (hfirst : FailsUnless prog s answers)
    (hnext : FailsUnless (next (prog s).1) (prog s).2 later) :
    FailsUnless (prog >>= next) s (answers ∧ later) := by
  obtain ⟨calls, hlog, hcalls⟩ := hfirst
  obtain ⟨more, hmore, hlater⟩ := hnext
  refine ⟨calls ++ more, ?_, ?_⟩
  · show (next (prog s).1 (prog s).2).2.log = _
    rw [hmore, hlog, List.append_assoc]
  · rw [some_failed_append, not_or, hcalls, hlater]

/-- Looking at the machine is no call. -/
theorem FailsUnless.look {α β : Type} {view : M → α} {next : α → Loader M β}
    (hnext : FailsUnless (next (view s.machine)) s answers) :
    FailsUnless (lookAt view >>= next) s answers :=
  hnext

/-- One call fails when its entry in the log says so. -/
theorem fails_unless_call {α : Type} {op : StateM M α} {entry : M → α → M → LoaderCall}
    {s : LoaderState M} :
    FailsUnless (callFirmware op entry) s
      ((entry s.machine (op s.machine).1 (op s.machine).2).failed = false) := by
  refine ⟨[entry s.machine (op s.machine).1 (op s.machine).2], rfl, ?_⟩
  rw [SomeFailed]
  simp only [List.mem_singleton, exists_eq_left, Bool.not_eq_true]

/-- A read fails unless it is in full. -/
theorem fails_unless_read (fw : Firmware M) (file size buffer : BitVec 64) (s : LoaderState M) :
    FailsUnless (callReadFile fw file size buffer) s
      (ReadInFull size (fw.readFile file size buffer s.machine).1) :=
  FailsUnless.iff fails_unless_call (by simp [LoaderCall.failed, ReadInFull])

/-- The loop never stops early. -/
theorem load_segments_calls (fw : Firmware M) (file programHeaders : BitVec 64)
    (i remaining : Nat) (s : LoaderState M) :
    FailsUnless (loadSegments fw file programHeaders i remaining) s
      (SegmentsAnswered fw file programHeaders i remaining s.machine) := by
  induction remaining generalizing i s with
  | zero => exact FailsUnless.pure () s
  | succ remaining ih =>
      rw [loadSegments, SegmentsAnswered]
      refine FailsUnless.look ?_
      dsimp only
      split
      · exact fails_unless_call.bind (FailsUnless.look (fails_unless_call.bind
          ((fails_unless_read fw file _ _ _).bind (ih (i + 1) _))))
      · exact ih (i + 1) s

/-- A variable that was not set is used only after a call that failed. -/
theorem fails_unless_use {α : Type} {answer : EfiStatus × BitVec 64} {fault : LoaderFault}
    {next : BitVec 64 → Loader M (Except LoaderFault α)}
    (hnext : FailsUnless (next answer.2) s answers) :
    FailsUnless (useParam answer fault next) s (efiError answer.1 = false → answers) := by
  unfold useParam
  split
  · next herror => exact (FailsUnless.pure _ s).iff (by simp [herror])
  · next hset => exact hnext.iff (by simp [Bool.not_eq_true _ ▸ hset])

/-- The calls after the header check. -/
theorem load_image_calls (fw : Firmware M) (file : BitVec 64) (headers : ElfHeader)
    (status : EfiStatus) (s : LoaderState M) :
    FailsUnless (loadImage fw file headers status) s
      (ImageAnswered fw file headers s.machine) := by
  unfold loadImage
  refine FailsUnless.iff (fails_unless_call.bind (fails_unless_call.bind (fails_unless_use
    ((fails_unless_read fw file _ _ _).bind ((load_segments_calls fw file _ _ _ _).bind
      (FailsUnless.pure _ _)))))) ?_
  constructor
  · rintro ⟨hpool, hsought, hrest⟩
    obtain ⟨hread, hsegments, -⟩ := hrest hpool
    exact ⟨hpool, hsought, hread, hsegments⟩
  · rintro ⟨hpool, hsought, hread, hsegments⟩
    exact ⟨hpool, hsought, fun _ => ⟨hread, hsegments, trivial⟩⟩

/-! ## What `GetKernelEntry` reports -/

variable {image stack file : BitVec 64}

/-- After the header check the outcome depends on the answer to `AllocatePool` alone. -/
theorem load_image_result (headers : ElfHeader) (status : EfiStatus) :
    (loadImage fw file headers status s).1 =
      if efiError (fw.allocatePool efiLoaderData headers.loadSize s.machine).1.1 then
        .error .programHeaders
      else .ok (status, headers.eEntry) := by
  show ((if efiError (fw.allocatePool efiLoaderData headers.loadSize s.machine).1.1 then _ else _ :
    Loader M (Except LoaderFault (EfiStatus × BitVec 64))) _).1 = _
  split <;> rfl

/-- Once the header has passed the check, no error is reported. -/
theorem load_image_not_error (headers : ElfHeader) :
    ¬ ReportsError (loadImage fw file headers efiSuccess s).1 := by
  rintro ⟨status, kernelEntry, hresult, herror⟩
  rw [load_image_result] at hresult
  split at hresult
  · cases hresult
  · obtain ⟨rfl, -⟩ := Prod.mk.inj (Except.ok.inj hresult)
    cases herror

/-- A good header leads to the program headers. -/
theorem load_kernel_good (hgood : (headerRead fw file stack s.machine).isKernel = true)
    (status : EfiStatus) :
    loadKernel fw file stack status s =
      loadImage fw file (headerRead fw file stack s.machine) status
        (callReadFile fw file elfHeaderSize stack s).2 := by
  show (if (headerRead fw file stack s.machine).isKernel then _ else _ :
    Loader M (Except LoaderFault (EfiStatus × BitVec 64))) _ = _
  rw [if_pos hgood]
  rfl

/-- A bad header is reported, and nothing is called after the read. -/
theorem load_kernel_bad (hbad : (headerRead fw file stack s.machine).isKernel = false)
    (status : EfiStatus) :
    loadKernel fw file stack status s =
      (.ok (efiLoadError, 0), (callReadFile fw file elfHeaderSize stack s).2) := by
  show (if (headerRead fw file stack s.machine).isKernel then _ else _ :
    Loader M (Except LoaderFault (EfiStatus × BitVec 64))) _ = _
  rw [if_neg (Bool.not_eq_true _ ▸ hbad)]
  rfl

/-- With a good header, the failing calls are those that `KernelAnswered` is about. -/
theorem load_kernel_calls (hgood : (headerRead fw file stack s.machine).isKernel = true)
    (status : EfiStatus) :
    FailsUnless (loadKernel fw file stack status) s (KernelAnswered fw file stack s.machine) := by
  obtain ⟨read, hread, hfirst⟩ := fails_unless_read fw file elfHeaderSize stack s
  obtain ⟨calls, hlog, hcalls⟩ := load_image_calls fw file (headerRead fw file stack s.machine)
    status (callReadFile fw file elfHeaderSize stack s).2
  refine ⟨read ++ calls, ?_, ?_⟩
  · rw [load_kernel_good hgood, hlog, hread, List.append_assoc]
  · rw [some_failed_append, not_or, hfirst, hcalls, KernelAnswered, hgood]
    exact (or_iff_right (by decide)).symm

/-- From the first read on, every failure is reported exactly if `KernelAnswered`. -/
theorem load_kernel_reports (fw : Firmware M) (file stack : BitVec 64) (s : LoaderState M) :
    ∃ calls, (loadKernel fw file stack efiSuccess s).2.log = s.log ++ calls ∧
      ((SomeFailed calls → ReportsError (loadKernel fw file stack efiSuccess s).1) ↔
        KernelAnswered fw file stack s.machine) := by
  cases hheader : (headerRead fw file stack s.machine).isKernel with
  | false =>
      rw [load_kernel_bad hheader]
      exact ⟨_, rfl, fun _ => .inl hheader, fun _ _ => ⟨efiLoadError, 0, rfl, rfl⟩⟩
  | true =>
      obtain ⟨calls, hlog, hcalls⟩ := load_kernel_calls hheader efiSuccess
      have hresult : ¬ ReportsError (loadKernel fw file stack efiSuccess s).1 := by
        rw [load_kernel_good hheader]
        exact load_image_not_error _
      refine ⟨calls, hlog, ?_⟩
      rw [imp_iff_not hresult, hcalls]

/-- The calls of `GetKernelEntry` up to the answer to `Open`. -/
def openCalls (opened : EfiStatus) : List LoaderCall :=
  [.other, .other, .openKernel opened]

/-- `GetKernelEntry` up to the first use of the file handle. -/
theorem kernel_entry_eq (fw : Firmware M) (image stack : BitVec 64) (status : EfiStatus)
    (s : LoaderState M) :
    getKernelEntry fw image stack status s =
      useParam (kernelOpened fw image s.machine).1 .kernelFile
        (fun file => loadKernel fw file stack status)
        ⟨(kernelOpened fw image s.machine).2,
          s.log ++ openCalls (kernelOpened fw image s.machine).1.1⟩ := by
  have hlog : s.log ++ openCalls (kernelOpened fw image s.machine).1.1 =
      s.log ++ [.other] ++ [.other] ++ [.openKernel (kernelOpened fw image s.machine).1.1] := by
    rw [List.append_assoc, List.append_assoc]
    rfl
  rw [hlog]
  rfl

/-- A file that was not opened is used. -/
theorem kernel_entry_unopened (hunopened : efiError (kernelOpened fw image s.machine).1.1 = true)
    (stack : BitVec 64) (status : EfiStatus) :
    getKernelEntry fw image stack status s =
      (.error .kernelFile, ⟨(kernelOpened fw image s.machine).2,
        s.log ++ openCalls (kernelOpened fw image s.machine).1.1⟩) := by
  rw [kernel_entry_eq, useParam, if_pos hunopened]
  rfl

/-- A file that was opened is read. -/
theorem kernel_entry_opened (hopened : efiError (kernelOpened fw image s.machine).1.1 = false)
    (stack : BitVec 64) (status : EfiStatus) :
    getKernelEntry fw image stack status s =
      loadKernel fw (kernelOpened fw image s.machine).1.2 stack status
        ⟨(kernelOpened fw image s.machine).2,
          s.log ++ openCalls (kernelOpened fw image s.machine).1.1⟩ := by
  rw [kernel_entry_eq, useParam, if_neg (ne_true_of_eq_false hopened)]

/-- Up to the answer to `Open`, only `Open` can fail. -/
theorem some_failed_open {opened : EfiStatus} :
    SomeFailed (openCalls opened) ↔ efiError opened = true := by
  simp [SomeFailed, openCalls, LoaderCall.failed]

/-- Once the file is open, the calls are those up to `Open` and those of `loadKernel`. -/
theorem opened_calls (hopened : efiError (kernelOpened fw image s.machine).1.1 = false)
    {stack : BitVec 64} {calls : List LoaderCall}
    (hlog : (loadKernel fw (kernelOpened fw image s.machine).1.2 stack efiSuccess
        ⟨(kernelOpened fw image s.machine).2,
          s.log ++ openCalls (kernelOpened fw image s.machine).1.1⟩).2.log =
      s.log ++ openCalls (kernelOpened fw image s.machine).1.1 ++ calls) :
    callsFrom (getKernelEntry fw image stack efiSuccess) s =
      openCalls (kernelOpened fw image s.machine).1.1 ++ calls := by
  rw [callsFrom, kernel_entry_opened hopened, hlog, List.append_assoc, List.drop_left]

/-- Every failure is reported exactly if `LoadAnswered`. -/
theorem kernel_entry_reports (fw : Firmware M) (image stack : BitVec 64) (s : LoaderState M) :
    (SomeFailed (callsFrom (getKernelEntry fw image stack efiSuccess) s) →
        ReportsError (getKernelEntry fw image stack efiSuccess s).1) ↔
      LoadAnswered fw image stack s.machine := by
  cases hopened : efiError (kernelOpened fw image s.machine).1.1 with
  | true =>
      -- `Open` has failed, and the next call goes through the handle that is not set
      rw [callsFrom, kernel_entry_unopened hopened, List.drop_left, LoadAnswered, hopened]
      refine ⟨fun hreports => ?_, fun hanswered => ?_⟩
      · obtain ⟨status, kernelEntry, hresult, -⟩ := hreports (some_failed_open.mpr hopened)
        cases hresult
      · cases hanswered.1
  | false =>
      obtain ⟨calls, hlog, hcalls⟩ := load_kernel_reports fw (kernelOpened fw image s.machine).1.2
        stack ⟨(kernelOpened fw image s.machine).2,
          s.log ++ openCalls (kernelOpened fw image s.machine).1.1⟩
      have hopen : ¬ SomeFailed (openCalls (kernelOpened fw image s.machine).1.1) := by
        rw [some_failed_open, hopened]
        exact Bool.false_ne_true
      rw [opened_calls hopened hlog, kernel_entry_opened hopened, some_failed_append,
        or_iff_right hopen, hcalls, LoadAnswered, hopened]
      exact (and_iff_right rfl).symm

/-- The only call of `loadKernel` with a bad header. -/
theorem load_kernel_bad_calls (hbad : (headerRead fw file stack s.machine).isKernel = false) :
    ∃ read returned, (loadKernel fw file stack efiSuccess s).2.log =
      s.log ++ [.readFile read elfHeaderSize returned stack] :=
  ⟨_, _, by rw [load_kernel_bad hbad]; rfl⟩

/-- When no failure goes unreported, nothing is read into pages that were refused: either no call
fails, or no pages are asked for. -/
theorem answered_no_read (hanswered : LoadAnswered fw image stack s.machine) :
    NoReadIntoFailedPages (callsFrom (getKernelEntry fw image stack efiSuccess) s) := by
  obtain ⟨hopened, hkernel⟩ := hanswered
  intro before status pages address key after hcalls herror
  have hmem : .allocatePages status pages address key ∈
      callsFrom (getKernelEntry fw image stack efiSuccess) s :=
    hcalls ▸ List.mem_append_right _ List.mem_cons_self
  cases hheader : (headerRead fw (kernelOpened fw image s.machine).1.2 stack
      (kernelOpened fw image s.machine).2).isKernel with
  | false =>
      obtain ⟨read, returned, hlog⟩ := load_kernel_bad_calls (s := ⟨_, _⟩) hheader
      rw [opened_calls hopened hlog] at hmem
      simp [openCalls] at hmem
  | true =>
      obtain ⟨calls, hlog, hfailed⟩ := load_kernel_calls (s := ⟨_, _⟩) hheader efiSuccess
      rw [opened_calls hopened hlog] at hmem
      rcases List.mem_append.mp hmem with hopen | hcall
      · simp [openCalls] at hopen
      · exact absurd ⟨_, hcall, herror⟩ (hfailed.mpr hkernel)

/-! ## The run of `efi_main` -/

variable {fuel : Nat} {start : LoaderState M} {frameBuffer : FrameBuffer} {map : LoadedMap}

/-- The first of two parts of the loader, and then the second one. -/
theorem loader_bind {α β : Type} (first : Loader M α) (second : α → Loader M β)
    (s : LoaderState M) : (first >>= second) s = second (first s).1 (first s).2 :=
  rfl

/-- `efi_main` is its preparation and the call of the kernel. -/
theorem efi_main_eq (image stack : BitVec 64) :
    efiMain fw fuel image stack = (do
      let prepared ← efiPrepare fw fuel
      match prepared with
      | none => return none
      | some none => return some .halted
      | some (some (frameBuffer, map)) =>
          let outcome ← enterKernel fw image stack frameBuffer map
          return some outcome) := by
  unfold efiMain efiPrepare
  rw [bind_assoc]
  refine congrArg (callOther fw.print >>= ·) (funext fun _ => ?_)
  rw [bind_assoc]
  refine congrArg (initializeGop fw >>= ·) (funext fun graphics => ?_)
  cases graphics with
  | error status => rw [bind_assoc]; rfl
  | ok frameBuffer =>
      dsimp only
      rw [bind_assoc]
      refine congrArg (callOther fw.print >>= ·) (funext fun _ => ?_)
      rw [bind_assoc]
      refine congrArg (getMemoryMapLoop fw fuel efiDescriptorSize >>= ·) (funext fun loaded => ?_)
      match loaded with
      | none => rfl
      | some none => rfl
      | some (some map) => rfl

/-- A run that gets as far as loading the kernel ends in the endless loop when an error is
reported. -/
theorem efi_main_halted
    (hprepared : efiPrepare fw fuel start = (some (some (frameBuffer, map)), s))
    (hreports : ReportsError (getKernelEntry fw image stack efiSuccess (loadStart fw s)).1) :
    (efiMain fw fuel image stack start).1 = some .halted := by
  obtain ⟨status, kernelEntry, hresult, herror⟩ := hreports
  have hrun : (efiMain fw fuel image stack start).1 =
      some (enterKernel fw image stack frameBuffer map s).1 := by
    rw [efi_main_eq, loader_bind, hprepared]
    rfl
  rw [hrun, enterKernel, loader_bind, loader_bind, ← loadStart, hresult]
  show some ((if efiError status then _ else _ : Loader M BootOutcome) _).1 = _
  rw [if_pos herror]
  rfl

/-- Once `efi_main` gets as far as loading the kernel, a failed load stops exactly if the firmware
answers as `LoadAnswered` says: `Open` succeeds, and then either the header in memory after the
first read does not pass the check, or no later call fails and the first read is in full. -/
theorem failed_load_stops_iff {fw : Firmware M} {fuel : Nat} (image stack : BitVec 64)
    {start s : LoaderState M} {frameBuffer : FrameBuffer} {map : LoadedMap}
    (hprepared : efiPrepare fw fuel start = (some (some (frameBuffer, map)), s)) :
    FailedLoadStops fw fuel image stack start (loadStart fw s) ↔
      LoadAnswered fw image stack (loadStart fw s).machine := by
  constructor
  · exact fun h => (kernel_entry_reports fw image stack (loadStart fw s)).mp h.status_error
  · intro hanswered
    have hreports := (kernel_entry_reports fw image stack (loadStart fw s)).mpr hanswered
    exact ⟨hreports, fun hfailed => efi_main_halted hprepared (hreports hfailed),
      answered_no_read hanswered⟩

/-! ## Two firmwares that fail -/

/-- No read of the file succeeds. -/
def unreadableFirmware : Firmware CountingMachine :=
  { countingFirmware with readFile := fun _ _ _ m => ((efiDeviceError, 0), m) }

/-- The memory at 1 MiB is in use. -/
def occupiedFirmware : Firmware CountingMachine :=
  { countingFirmware with allocatePages := fun _ _ _ address m => ((efiNotFound, address), m) }

/-- The machine when either of them has read the memory map. -/
def mapRead : LoaderState CountingMachine where
  machine := { countingStart with key := 1 }
  log := [.other, .other, .other, .other, .allocatePool efiSuccess 1, .getMemoryMap efiSuccess 1]

/-- A kernel whose header cannot be read is not called. -/
theorem unreadable_load_stops :
    SomeFailed (callsFrom (getKernelEntry unreadableFirmware 1 0x9000 efiSuccess)
      (loadStart unreadableFirmware mapRead)) ∧
    FailedLoadStops unreadableFirmware 1 1 0x9000 ⟨countingStart, []⟩
      (loadStart unreadableFirmware mapRead) := by
  have hprepared : efiPrepare unreadableFirmware 1 ⟨countingStart, []⟩ =
      (some (some (⟨0x80000000, 0x300000, 1024, 768, 1024⟩, ⟨0x7000, 40, 1, 40⟩)), mapRead) :=
    rfl
  refine ⟨by unfold SomeFailed; decide +kernel, ?_⟩
  exact (failed_load_stops_iff 1 0x9000 hprepared).mpr ⟨rfl, .inl (by decide +kernel)⟩

/-- The pages of the only segment are refused. The segment is read into them all the same, and the
kernel is called. -/
theorem refused_pages_enter_kernel :
    efiPrepare occupiedFirmware 1 ⟨countingStart, []⟩ =
      (some (some (⟨0x80000000, 0x300000, 1024, 768, 1024⟩, ⟨0x7000, 40, 1, 40⟩)), mapRead) ∧
    callsFrom (getKernelEntry occupiedFirmware 1 0x9000 efiSuccess)
        (loadStart occupiedFirmware mapRead) =
      [.other, .other, .openKernel efiSuccess, .readFile efiSuccess 64 64 0x9000,
        .allocatePool efiSuccess 2, .setPosition efiSuccess 64, .readFile efiSuccess 56 56 0x7000,
        .allocatePages efiNotFound 1 0x100000 2, .setPosition efiSuccess 0,
        .readFile efiSuccess 120 120 0x100000] ∧
    (efiMain occupiedFirmware 1 1 0x9000 ⟨countingStart, []⟩).1 =
      some (.entered 0x100000 ⟨⟨0x80000000, 0x300000, 1024, 768, 1024⟩, 0x7000, 40, 40⟩) ∧
    ¬ FailedLoadStops occupiedFirmware 1 1 0x9000 ⟨countingStart, []⟩
      (loadStart occupiedFirmware mapRead) := by
  refine ⟨rfl, by decide +kernel, by decide +kernel, fun h => ?_⟩
  have hfailed : SomeFailed (callsFrom (getKernelEntry occupiedFirmware 1 0x9000 efiSuccess)
      (loadStart occupiedFirmware mapRead)) := by
    unfold SomeFailed
    decide +kernel
  have hhalted := h.not_entered hfailed
  revert hhalted
  decide +kernel

end SiStultum
