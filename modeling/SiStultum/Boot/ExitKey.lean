import SiStultum.Boot.Loader

/-!
# Leaving boot services before the kernel

`efi_main` reads the key of the memory map, loads the kernel, and only then leaves boot services
with the key it read. `keyInv` is what every call of the bootloader keeps: the newest entry of
the log that mentions a key, a successful `GetMemoryMap` or a successful allocation, holds the
current key of the firmware. `exit_boot_services_iff` is the result for whole runs: boot services
have been left exactly when loading the kernel did not change the key.
-/

namespace SiStultum

open Hoare

/-- The key in force after an entry, if the entry tells it. -/
def LoaderCall.keyAfter : LoaderCall → Option (BitVec 64)
  | .getMemoryMap status mapKey => if efiError status then none else some mapKey
  | .allocatePool status key => if efiError status then none else some key
  | .allocatePages status _ _ key => if efiError status then none else some key
  | _ => none

/-- The key that a successful `GetMemoryMap` stored. -/
def LoaderCall.mapKey : LoaderCall → Option (BitVec 64)
  | .getMemoryMap status mapKey => if efiError status then none else some mapKey
  | _ => none

/-- The key in force when `ExitBootServices` was called. -/
def LoaderCall.exitKey : LoaderCall → Option (BitVec 64)
  | .exitBootServices _ _ current => some current
  | _ => none

/-- `ExitBootServices` has succeeded. -/
def BootServicesExited (log : List LoaderCall) : Prop :=
  ∃ status given current, .exitBootServices status given current ∈ log ∧ efiError status = false

/-- The entry is a successful call of `ExitBootServices`. -/
def LoaderCall.exits : LoaderCall → Bool
  | .exitBootServices status _ _ => !efiError status
  | _ => false

/-- The decidable form of `BootServicesExited`. -/
theorem boot_services_exited_iff (log : List LoaderCall) :
    BootServicesExited log ↔ log.any LoaderCall.exits = true := by
  rw [List.any_eq_true]
  constructor
  · rintro ⟨status, given, current, hmem, hsuccess⟩
    exact ⟨_, hmem, by rw [LoaderCall.exits, hsuccess]; rfl⟩
  · rintro ⟨entry, hmem, hexits⟩
    cases entry with
    | exitBootServices status given current =>
        exact ⟨status, given, current, hmem, by simpa [LoaderCall.exits] using hexits⟩
    | _ => cases hexits

variable {M : Type}

/-- An entry agrees with what the call did to the key. -/
def Reports (fw : Firmware M) (entry : LoaderCall) (before after : M) : Prop :=
  match entry.keyAfter with
  | some key => key = fw.key after
  | none => fw.key after = fw.key before

/-- While boot services are active: the key that the last `GetMemoryMap` stored is `mapKey`, and, if
only allocations change the key, the newest key in the log is the current one. -/
structure KeyInv (fw : Firmware M) (mapKey : Option (BitVec 64)) (s : LoaderState M) : Prop where
  active : Search.lastSome LoaderCall.exitKey s.log = none
  map : Search.lastSome LoaderCall.mapKey s.log = mapKey
  current : OnlyAllocationsChangeKey fw →
    ∀ key, Search.lastSome LoaderCall.keyAfter s.log = some key → key = fw.key s.machine

variable {fw : Firmware M} {mapKey : Option (BitVec 64)}

/-! ## One call -/

/-- A call that reports its key, and that is neither `GetMemoryMap` nor `ExitBootServices`, keeps
the invariant. -/
theorem keeps_call {α : Type} {op : StateM M α} {entry : M → α → M → LoaderCall}
    (hmap : ∀ before answer after, (entry before answer after).mapKey = none)
    (hexit : ∀ before answer after, (entry before answer after).exitKey = none)
    (hreports : OnlyAllocationsChangeKey fw →
      ∀ m, Reports fw (entry m (op m).1 (op m).2) m (op m).2) :
    Keeps (KeyInv fw mapKey) (callFirmware op entry) := by
  intro s h
  constructor
  case active => simp only [callFirmware, Search.last_some_concat, hexit, Option.none_or, h.active]
  case map => simp only [callFirmware, Search.last_some_concat, hmap, Option.none_or, h.map]
  case current =>
    intro honly key hkey
    have hreport := hreports honly s.machine
    simp only [callFirmware, Search.last_some_concat] at hkey ⊢
    unfold Reports at hreport
    split at hreport
    · next found hfound =>
        rw [hfound, Option.some_or, Option.some.injEq] at hkey
        rw [← hkey, hreport]
    · next hnone =>
        rw [hnone, Option.none_or] at hkey
        rw [hreport, h.current honly key hkey]

/-- Looking at the machine keeps the invariant. -/
theorem keeps_look_at {α : Type} (view : M → α) : Keeps (KeyInv fw mapKey) (lookAt view) :=
  fun _ h => h

/-- A call that does not change the key keeps the invariant. -/
theorem keeps_other {α : Type} {op : StateM M α}
    (hop : OnlyAllocationsChangeKey fw → KeepsKey fw op) :
    Keeps (KeyInv fw mapKey) (callOther op) :=
  keeps_call (fun _ _ _ => rfl) (fun _ _ _ => rfl) hop

/-- `AllocatePool` is recorded with the key after it. -/
theorem keeps_allocate_pool (poolType : BitVec 32) (size : BitVec 64) :
    Keeps (KeyInv fw mapKey) (callAllocatePool fw poolType size) := by
  refine keeps_call (fun _ _ _ => rfl) (fun _ _ _ => rfl) ?_
  intro honly m
  unfold Reports
  cases herror : efiError (fw.allocatePool poolType size m).1.1 with
  | true => simpa [LoaderCall.keyAfter, herror] using honly.failed_pool poolType size m herror
  | false => simp [LoaderCall.keyAfter, herror]

/-- So is `AllocatePages`. -/
theorem keeps_allocate_pages (type memoryType : BitVec 32) (pages address : BitVec 64) :
    Keeps (KeyInv fw mapKey) (callAllocatePages fw type memoryType pages address) := by
  refine keeps_call (fun _ _ _ => rfl) (fun _ _ _ => rfl) ?_
  intro honly m
  unfold Reports
  cases herror : efiError (fw.allocatePages type memoryType pages address m).1.1 with
  | true =>
      simpa [LoaderCall.keyAfter, herror] using
        honly.failed_pages type memoryType pages address m herror
  | false => simp [LoaderCall.keyAfter, herror]

/-- Opening the kernel does not change the key. -/
theorem keeps_open_kernel (volume : BitVec 64) :
    Keeps (KeyInv fw mapKey) (callOpenKernel fw volume) :=
  keeps_call (fun _ _ _ => rfl) (fun _ _ _ => rfl) fun honly => honly.openKernel volume

/-- `SetPosition` does not change the key. -/
theorem keeps_set_position (file position : BitVec 64) :
    Keeps (KeyInv fw mapKey) (callSetPosition fw file position) :=
  keeps_call (fun _ _ _ => rfl) (fun _ _ _ => rfl) fun honly => honly.setPosition file position

/-- `Read` does not change the key. -/
theorem keeps_read_file (file size buffer : BitVec 64) :
    Keeps (KeyInv fw mapKey) (callReadFile fw file size buffer) :=
  keeps_call (fun _ _ _ => rfl) (fun _ _ _ => rfl) fun honly => honly.readFile file size buffer

/-- A successful `GetMemoryMap` makes its key the current one of the log. -/
theorem get_memory_map_key (laws : FirmwareLaws fw) (mapSize memoryMap : BitVec 64) :
    Triple (KeyInv fw mapKey) (callGetMemoryMap fw mapSize memoryMap) fun answer s =>
      ∃ stored, KeyInv fw stored s ∧
        (efiError answer.status = false → stored = some answer.mapKey) := by
  intro s h
  have hkeeps := fun honly : OnlyAllocationsChangeKey fw =>
    honly.getMemoryMap mapSize memoryMap s.machine
  have hreturns := laws.map_returns_key mapSize memoryMap s.machine
  have hcall : callGetMemoryMap fw mapSize memoryMap s =
      ((fw.getMemoryMap mapSize memoryMap s.machine).1,
        { machine := (fw.getMemoryMap mapSize memoryMap s.machine).2,
          log := s.log ++ [.getMemoryMap (fw.getMemoryMap mapSize memoryMap s.machine).1.status
            (fw.getMemoryMap mapSize memoryMap s.machine).1.mapKey] }) :=
    rfl
  rw [hcall]
  generalize fw.getMemoryMap mapSize memoryMap s.machine = answer at hkeeps hreturns ⊢
  cases herror : efiError answer.1.status with
  | true =>
      -- a failed call stores no key and does not change the current one
      refine ⟨mapKey, ⟨?_, ?_, ?_⟩, fun hsuccess => absurd hsuccess (by simp)⟩
      · simp only [Search.last_some_concat, LoaderCall.exitKey, Option.none_or, h.active]
      · simp only [Search.last_some_concat, LoaderCall.mapKey, herror, if_true, Option.none_or,
          h.map]
      · intro honly key hkey
        simp only [Search.last_some_concat, LoaderCall.keyAfter, herror, if_true,
          Option.none_or] at hkey
        rw [h.current honly key hkey]
        exact (hkeeps honly).symm
  | false =>
      refine ⟨some answer.1.mapKey, ⟨?_, ?_, ?_⟩, fun _ => rfl⟩
      · simp only [Search.last_some_concat, LoaderCall.exitKey, Option.none_or, h.active]
      · simp [Search.last_some_concat, LoaderCall.mapKey, herror]
      · intro _ key hkey
        simp only [Search.last_some_concat, LoaderCall.keyAfter, herror, Bool.false_eq_true,
          if_false, Option.some_or, Option.some.injEq] at hkey
        rw [← hkey, hreturns herror]

/-! ## The parts of `efi_main` -/

/-- `GetVolume` does not change the key. -/
theorem keeps_get_volume (image : BitVec 64) : Keeps (KeyInv fw mapKey) (getVolume fw image) :=
  (keeps_other fun honly => honly.handleProtocol image).bind fun _ =>
    (keeps_look_at _).bind fun device => keeps_other fun honly => honly.libOpenRoot device

/-- Neither does the start of the graphics output. -/
theorem keeps_start_gop (gop : BitVec 64) (queried : EfiStatus) :
    Keeps (KeyInv fw mapKey) (startGop fw gop queried) := by
  unfold startGop
  split
  · exact keeps_other fun honly => honly.setMode gop 0
  · exact Keeps.pure _

/-- `initialize_gop` keeps the invariant. -/
theorem keeps_initialize_gop : Keeps (KeyInv fw mapKey) (initializeGop fw) := by
  refine (keeps_other fun honly => honly.locateGop).bind fun ⟨located, gop⟩ => ?_
  dsimp only
  split
  · exact Keeps.pure _
  · refine (keeps_look_at _).bind fun mode =>
      (keeps_other fun honly => honly.queryMode gop mode).bind fun queried =>
        (keeps_start_gop gop queried).bind fun status => ?_
    split
    · exact Keeps.pure _
    · exact (keeps_look_at _).bind fun _ => Keeps.pure _

/-- `lib_allocate_pool` keeps the invariant. -/
theorem keeps_lib_allocate_pool (size : BitVec 64) :
    Keeps (KeyInv fw mapKey) (libAllocatePool fw size) :=
  (keeps_allocate_pool fw.poolType size).bind fun _ => Keeps.pure _

/-- The loop over the segments keeps the invariant. -/
theorem keeps_load_segments (file programHeaders : BitVec 64) (i remaining : Nat) :
    Keeps (KeyInv fw mapKey) (loadSegments fw file programHeaders i remaining) := by
  induction remaining generalizing i with
  | zero => exact Keeps.pure _
  | succ remaining ih =>
      refine (keeps_look_at _).bind fun header => ?_
      split
      · exact (keeps_allocate_pages allocateAddress efiLoaderData header.pages header.pPaddr).bind
          fun segment => (keeps_look_at _).bind fun position =>
            (keeps_set_position file position).bind fun _ =>
              (keeps_read_file file header.pFilesz segment.2).bind fun _ => ih (i + 1)
      · exact ih (i + 1)

/-- What a call has filled in is used, or its use is a fault. -/
theorem keeps_use_param {α : Type} {answer : EfiStatus × BitVec 64} {fault : LoaderFault}
    {next : BitVec 64 → Loader M (Except LoaderFault α)}
    (hnext : Keeps (KeyInv fw mapKey) (next answer.2)) :
    Keeps (KeyInv fw mapKey) (useParam answer fault next) := by
  unfold useParam
  split
  · exact Keeps.pure _
  · exact hnext

/-- The part of `get_kernel_entry` after the header keeps the invariant. -/
theorem keeps_load_image (file : BitVec 64) (headers : ElfHeader) (status : EfiStatus) :
    Keeps (KeyInv fw mapKey) (loadImage fw file headers status) :=
  (keeps_allocate_pool efiLoaderData headers.loadSize).bind fun allocated =>
    (keeps_set_position file headers.ePhoff).bind fun _ => keeps_use_param <|
      (keeps_read_file file headers.loadSize allocated.2).bind fun _ =>
        (keeps_load_segments file allocated.2 0 headers.ePhnum.toNat).bind fun _ => Keeps.pure _

/-- `get_kernel_entry` keeps the invariant. -/
theorem keeps_get_kernel_entry (image stack : BitVec 64) (status : EfiStatus) :
    Keeps (KeyInv fw mapKey) (getKernelEntry fw image stack status) := by
  refine (keeps_get_volume image).bind fun volume =>
    (keeps_open_kernel volume).bind fun opened => keeps_use_param <|
      (keeps_read_file opened.2 elfHeaderSize stack).bind fun _ =>
        (keeps_look_at _).bind fun headers => ?_
  split
  · exact keeps_load_image opened.2 headers status
  · exact Keeps.pure _

/-- The loop of `GetMemoryMap` returns the key that it stored last. -/
theorem get_memory_map_loop_key (laws : FirmwareLaws fw) (fuel : Nat) (mapSize : BitVec 64) :
    Triple (fun s => ∃ mapKey, KeyInv fw mapKey s) (getMemoryMapLoop fw fuel mapSize)
      fun loaded s => ∀ map, loaded = some (some map) → KeyInv fw (some map.mapKey) s := by
  induction fuel generalizing mapSize with
  | zero =>
      intro s _ map hmap
      cases hmap
  | succ fuel ih =>
      refine Triple.exists fun mapKey => (keeps_lib_allocate_pool mapSize).bind fun memoryMap =>
        (get_memory_map_key laws mapSize memoryMap).bind fun answer =>
          Triple.exists fun stored => ?_
      split
      · exact (ih answer.mapSize).mono (fun _ hs => ⟨stored, hs.1⟩) fun _ _ hs => hs
      · split
        · intro s _ map hmap
          cases hmap
        · next herror =>
            rintro s ⟨hs, hstored⟩ map hmap
            obtain rfl := Option.some.inj (Option.some.inj hmap)
            have hsuccess : efiError answer.status = false := by
              simpa using (not_or.mp herror).1
            exact hstored hsuccess ▸ hs

/-! ## Whole runs -/

/-- The log of a run that called the kernel ends with the call of `ExitBootServices`. -/
structure EnteredLog (fw : Firmware M) (before : List LoaderCall) (status : EfiStatus)
    (given key : BitVec 64) : Prop where
  active : Search.lastSome LoaderCall.exitKey before = none
  map : Search.lastSome LoaderCall.mapKey before = some given
  current : OnlyAllocationsChangeKey fw →
    ∀ last, Search.lastSome LoaderCall.keyAfter before = some last → last = key
  exit : efiError status = false ↔ given = key

/-- The kernel is called right after `ExitBootServices`, whatever that returned. -/
theorem enter_kernel_log (laws : FirmwareLaws fw) (image stack : BitVec 64)
    (frameBuffer : FrameBuffer) (map : LoadedMap) :
    Triple (KeyInv fw (some map.mapKey)) (enterKernel fw image stack frameBuffer map)
      fun outcome s => ∀ kernelEntry info, outcome = .entered kernelEntry info →
        ∃ before status given current,
          s.log = before ++ [.exitBootServices status given current] ∧
            EnteredLog fw before status given current := by
  refine (keeps_other fun honly => honly.print).bind fun _ =>
    (keeps_get_kernel_entry image stack efiSuccess).bind fun loaded => ?_
  match loaded with
  | .error fault =>
      intro s _ entry info hentered
      cases hentered
  | .ok (status, kernelEntry) =>
      dsimp only
      split
      · intro s _ entry info hentered
        cases hentered
      · intro s h entry info _
        exact ⟨s.log, _, map.mapKey, fw.key s.machine, rfl, h.active, h.map, h.current,
          laws.exit_iff image map.mapKey s.machine⟩

/-- The log of every run of `efi_main` that calls the kernel. -/
theorem efi_main_log (laws : FirmwareLaws fw) (fuel : Nat) (image stack : BitVec 64) :
    Triple (fun s => s.log = []) (efiMain fw fuel image stack)
      fun outcome s => ∀ kernelEntry info, outcome = some (.entered kernelEntry info) →
        ∃ before status given current,
          s.log = before ++ [.exitBootServices status given current] ∧
            EnteredLog fw before status given current := by
  have hstart : ∀ s : LoaderState M, s.log = [] → KeyInv fw none s := by
    intro s hempty
    constructor <;> simp [hempty]
  refine Triple.mono (Keeps.bind (keeps_other fun honly => honly.print) fun _ =>
    keeps_initialize_gop.bind fun graphics => ?_) hstart fun _ _ hs => hs
  cases graphics with
  | error status =>
      intro s _ kernelEntry info hentered
      cases hentered
  | ok frameBuffer =>
      refine (keeps_other fun honly => honly.print).bind fun _ => ?_
      refine Triple.bind ((get_memory_map_loop_key laws fuel efiDescriptorSize).mono
        (fun _ hs => ⟨_, hs⟩) fun _ _ hs => hs) fun loaded => ?_
      match loaded with
      | none =>
          intro s _ kernelEntry info hentered
          cases hentered
      | some none =>
          intro s _ kernelEntry info hentered
          cases hentered
      | some (some map) =>
          refine Triple.bind ((enter_kernel_log laws image stack frameBuffer map).mono
            (fun _ hs => hs map rfl) fun _ _ hs => hs) fun outcome => ?_
          intro s hs kernelEntry info hentered
          exact hs kernelEntry info (Option.some.inj hentered)

/-- A log with a map key has a newest key. -/
theorem last_key_is_some {log : List LoaderCall} {key : BitVec 64}
    (h : Search.lastSome LoaderCall.mapKey log = some key) :
    ∃ last, Search.lastSome LoaderCall.keyAfter log = some last := by
  obtain ⟨entry, hentry, hmap⟩ := List.exists_of_findSome?_eq_some h
  have hkey : entry.keyAfter = some key := by
    cases entry with
    | getMemoryMap status mapKey => exact hmap
    | _ => cases hmap
  rw [← Option.isSome_iff_exists, Search.lastSome, List.findSome?_isSome_iff]
  exact ⟨entry, hentry, by rw [hkey, Option.isSome_some]⟩

/-- In a log that ends with its only call of `ExitBootServices`, that call decides. -/
theorem exited_iff {before : List LoaderCall} {status : EfiStatus} {given current : BitVec 64}
    (hactive : Search.lastSome LoaderCall.exitKey before = none) :
    BootServicesExited (before ++ [.exitBootServices status given current]) ↔
      efiError status = false := by
  constructor
  · rintro ⟨other, key, now, hmem, hsuccess⟩
    rcases List.mem_append.mp hmem with hbefore | hlast
    · rw [Search.lastSome, List.findSome?_eq_none_iff] at hactive
      have hnone := hactive _ (List.mem_reverse.mpr hbefore)
      cases hnone
    · obtain ⟨rfl, -, -⟩ := LoaderCall.exitBootServices.inj (List.mem_singleton.mp hlast)
      exact hsuccess
  · intro hsuccess
    exact ⟨status, given, current, by simp, hsuccess⟩

/-- When `efi_main` calls the kernel, boot services have been left exactly if the key that was
current at `ExitBootServices` is the one that `GetMemoryMap` had stored. When only allocations
change the key, that is: no allocation succeeded after `GetMemoryMap`, or the last one that did
left the same key. -/
theorem exit_boot_services_iff {fw : Firmware M} (laws : FirmwareLaws fw) (fuel : Nat)
    (image stack : BitVec 64) (m : M) {kernelEntry : BitVec 64} {info : BootInfo}
    (hentered : (efiMain fw fuel image stack ⟨m, []⟩).1 = some (.entered kernelEntry info)) :
    let log := (efiMain fw fuel image stack ⟨m, []⟩).2.log
    (BootServicesExited log ↔
      Search.lastSome LoaderCall.exitKey log = Search.lastSome LoaderCall.mapKey log) ∧
    (OnlyAllocationsChangeKey fw → (BootServicesExited log ↔
      Search.lastSome LoaderCall.keyAfter log = Search.lastSome LoaderCall.mapKey log)) := by
  obtain ⟨before, status, given, current, hlog, h⟩ :=
    efi_main_log laws fuel image stack ⟨m, []⟩ rfl kernelEntry info hentered
  obtain ⟨last, hlast⟩ := last_key_is_some h.map
  have hexitkey : LoaderCall.exitKey (.exitBootServices status given current) = some current := rfl
  have hmapkey : LoaderCall.mapKey (.exitBootServices status given current) = none := rfl
  have hkeyafter : LoaderCall.keyAfter (.exitBootServices status given current) = none := rfl
  intro log
  simp only [log, hlog]
  rw [exited_iff h.active, h.exit, Search.last_some_concat, Search.last_some_concat,
    Search.last_some_concat, hexitkey, hmapkey, hkeyafter, Option.none_or, Option.none_or,
    Option.some_or, h.map, hlast, Option.some.injEq, Option.some.injEq]
  refine ⟨eq_comm, fun honly => ?_⟩
  rw [h.current honly last hlast, eq_comm]

/-! ## A firmware that counts its allocations -/

/-- A machine with a file open at a position. -/
structure CountingMachine where
  key : BitVec 64
  mem : ByteMemory
  position : BitVec 64

/-- An `ET_EXEC` file for x86-64 with one `PT_LOAD` segment of one page at 1 MiB. -/
def kernelFile : List (BitVec 8) :=
  [0x7f, 0x45, 0x4c, 0x46, 2, 1, 1, 0, 0, 0, 0, 0, 0, 0, 0, 0,
    2, 0, 62, 0, 1, 0, 0, 0, 0, 0, 0x10, 0, 0, 0, 0, 0,
    64, 0, 0, 0, 0, 0, 0, 0, 0, 0, 0, 0, 0, 0, 0, 0,
    0, 0, 0, 0, 64, 0, 56, 0, 1, 0, 0, 0, 0, 0, 0, 0,
    1, 0, 0, 0, 7, 0, 0, 0, 0, 0, 0, 0, 0, 0, 0, 0,
    0, 0, 0x10, 0, 0, 0, 0, 0, 0, 0, 0x10, 0, 0, 0, 0, 0,
    120, 0, 0, 0, 0, 0, 0, 0, 0, 0x10, 0, 0, 0, 0, 0, 0,
    0, 0x10, 0, 0, 0, 0, 0, 0]

/-- Every call succeeds, and every allocation adds one to the key. -/
def countingFirmware : Firmware CountingMachine where
  memory m := m.mem
  key m := m.key
  print := pure ()
  handleProtocol _ := pure 1
  deviceHandle _ _ := 1
  libOpenRoot _ := pure 1
  locateGop := pure (efiSuccess, 1)
  gopMode _ _ := 0
  gopFrameBuffer _ _ := ⟨0x80000000, 0x300000, 1024, 768, 1024⟩
  queryMode _ _ := pure efiSuccess
  setMode _ _ := pure efiSuccess
  getMemoryMap _ _ m := (⟨efiSuccess, 40, m.key, 40⟩, m)
  poolType := efiLoaderData
  allocatePool _ _ m := ((efiSuccess, 0x7000), { m with key := m.key + 1 })
  allocatePages _ _ _ address m := ((efiSuccess, address), { m with key := m.key + 1 })
  openKernel _ m := ((efiSuccess, 1), { m with position := 0 })
  setPosition _ position m := (efiSuccess, { m with position := position })
  readFile _ size buffer m :=
    ((efiSuccess, size),
      { m with
        mem := fun byte =>
          if (byte - buffer).toNat < size.toNat then
            kernelFile.getD (m.position.toNat + (byte - buffer).toNat) 0
          else m.mem byte
        position := m.position + size })
  exitBootServices _ mapKey m := (if mapKey = m.key then efiSuccess else 0x8000000000000002, m)

/-- The firmware that counts its allocations keeps the laws. -/
theorem counting_firmware_laws : FirmwareLaws countingFirmware := by
  constructor
  case pool_changes_key =>
    intro _ _ m _ hsame
    have hnext : m.key + 1 = m.key := hsame
    bv_omega
  case pages_changes_key =>
    intro _ _ _ _ m _ hsame
    have hnext : m.key + 1 = m.key := hsame
    bv_omega
  case map_returns_key => exact fun _ _ _ _ => rfl
  case exit_iff =>
    intro _ mapKey m
    simp only [countingFirmware]
    split
    · next hsame => simp [hsame, efiError, efiSuccess]
    · next hdiff =>
        constructor
        · intro hsuccess
          cases hsuccess
        · exact fun hsame => absurd hsame hdiff

/-- A machine that has just been switched on. -/
def countingStart : CountingMachine where
  key := 0
  mem _ := 0
  position := 0

/-- Under this firmware the loader enters the kernel. -/
theorem counting_run_enters :
    (efiMain countingFirmware 1 1 0x9000 ⟨countingStart, []⟩).1 =
      some (.entered 0x100000
        { fb := ⟨0x80000000, 0x300000, 1024, 768, 1024⟩, mmap := 0x7000, mmapSize := 40,
          mmapDescSize := 40 }) := by
  decide +kernel

/-- The two allocations that load the kernel change the key from 1 to 3. -/
theorem counting_run_not_exited :
    ¬ BootServicesExited (efiMain countingFirmware 1 1 0x9000 ⟨countingStart, []⟩).2.log :=
  mt (exit_boot_services_iff counting_firmware_laws 1 1 0x9000 countingStart
    counting_run_enters).1.mp (by decide +kernel)

/-- A run in which every call before `ExitBootServices` succeeds, and which calls the kernel with
boot services still active. -/
theorem kernel_entered_in_boot_services :
    FirmwareLaws countingFirmware ∧
      (∃ kernelEntry info, (efiMain countingFirmware 1 1 0x9000 ⟨countingStart, []⟩).1 =
        some (.entered kernelEntry info)) ∧
      ¬ BootServicesExited (efiMain countingFirmware 1 1 0x9000 ⟨countingStart, []⟩).2.log := by
  refine ⟨counting_firmware_laws, ⟨_, _, counting_run_enters⟩, ?_⟩
  rw [boot_services_exited_iff]
  decide +kernel

end SiStultum
