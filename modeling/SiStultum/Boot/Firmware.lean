import SiStultum.Library.ByteMemory
import SiStultum.Library.Hoare
import SiStultum.Library.Search

/-!
# The firmware behind the bootloader

The bootloader is a client of UEFI boot services and of the EFI library, neither of which is
part of the repository. `Firmware` has one field for each service that the bootloader calls, a
program over the state of the machine, and `FirmwareLaws` states what the services promise
about the key of the memory map.

A `LoaderState` is the machine with the log of the calls made so far.
-/

namespace SiStultum

/-- `EFI_STATUS`. -/
abbrev EfiStatus := BitVec 64

/-- `EFI_ERROR`: the top bit is set. -/
def efiError (status : EfiStatus) : Bool :=
  status.msb

def efiSuccess : EfiStatus := 0

def efiLoadError : EfiStatus := 0x8000000000000001

def efiBufferTooSmall : EfiStatus := 0x8000000000000005

def efiNotFound : EfiStatus := 0x800000000000000e

def efiNotStarted : EfiStatus := 0x8000000000000013

/-- `EfiLoaderData` of `EFI_MEMORY_TYPE`. -/
def efiLoaderData : BitVec 32 := 2

/-- `AllocateAddress` of `EFI_ALLOCATE_TYPE`. -/
def allocateAddress : BitVec 32 := 2

/-- The framebuffer that the bootloader hands to the kernel. -/
structure FrameBuffer where
  fbbase : BitVec 64
  fbsize : BitVec 64
  width : BitVec 32
  height : BitVec 32
  ppsl : BitVec 32
  deriving DecidableEq, Repr

/-- What `GetMemoryMap` returns: the status, and its three output parameters after the call. -/
structure MapAnswer where
  status : EfiStatus
  mapSize : BitVec 64
  mapKey : BitVec 64
  descriptorSize : BitVec 64
  deriving DecidableEq, Repr

/-- The services that the bootloader uses, over the states `M` of a machine. A service returns its
status and the values of its output parameters after the call. When it fails, what it returns for a
parameter that had no value before the call is not looked at. -/
structure Firmware (M : Type) where
  /-- Physical memory. -/
  memory : M → ByteMemory
  /-- The current key of the memory map. -/
  key : M → BitVec 64
  /-- Console output and the reports of `PrintSystemInfo`. -/
  print : StateM M Unit
  /-- `BS->HandleProtocol` for the loaded image protocol: the interface. -/
  handleProtocol (image : BitVec 64) : StateM M (BitVec 64)
  /-- `LoadedImage->DeviceHandle`. -/
  deviceHandle (loadedImage : BitVec 64) : M → BitVec 64
  /-- `LibOpenRoot`. -/
  libOpenRoot (device : BitVec 64) : StateM M (BitVec 64)
  /-- `BS->LocateProtocol` for the graphics output protocol. -/
  locateGop : StateM M (EfiStatus × BitVec 64)
  /-- `Gop->Mode == NULL ? 0 : Gop->Mode->Mode`. -/
  gopMode (gop : BitVec 64) : M → BitVec 32
  /-- The five values that `InitializeGop` copies from `Gop->Mode`. -/
  gopFrameBuffer (gop : BitVec 64) : M → FrameBuffer
  /-- `Gop->QueryMode`. -/
  queryMode (gop : BitVec 64) (mode : BitVec 32) : StateM M EfiStatus
  /-- `Gop->SetMode`. -/
  setMode (gop : BitVec 64) (mode : BitVec 32) : StateM M EfiStatus
  /-- `BS->GetMemoryMap`. -/
  getMemoryMap (mapSize memoryMap : BitVec 64) : StateM M MapAnswer
  /-- `PoolAllocationType` of the EFI library. -/
  poolType : BitVec 32
  /-- `BS->AllocatePool`. -/
  allocatePool (poolType : BitVec 32) (size : BitVec 64) : StateM M (EfiStatus × BitVec 64)
  /-- `BS->AllocatePages`. -/
  allocatePages (type memoryType : BitVec 32) (pages address : BitVec 64) :
    StateM M (EfiStatus × BitVec 64)
  /-- `Volume->Open` for the kernel file: the file handle. -/
  openKernel (volume : BitVec 64) : StateM M (EfiStatus × BitVec 64)
  /-- `KernelFile->SetPosition`. -/
  setPosition (file position : BitVec 64) : StateM M EfiStatus
  /-- `KernelFile->Read`: the number of bytes read. -/
  readFile (file size buffer : BitVec 64) : StateM M (EfiStatus × BitVec 64)
  /-- `BS->ExitBootServices`. -/
  exitBootServices (image mapKey : BitVec 64) : StateM M EfiStatus

variable {M : Type}

/-- What the firmware promises about the key of its memory map: a successful allocation changes it,
`GetMemoryMap` returns it, and `ExitBootServices` succeeds exactly when it is given the current
one. -/
structure FirmwareLaws (fw : Firmware M) : Prop where
  pool_changes_key : ∀ type size m, efiError (fw.allocatePool type size m).1.1 = false →
    fw.key (fw.allocatePool type size m).2 ≠ fw.key m
  pages_changes_key : ∀ type memoryType pages address m,
    efiError (fw.allocatePages type memoryType pages address m).1.1 = false →
    fw.key (fw.allocatePages type memoryType pages address m).2 ≠ fw.key m
  map_returns_key : ∀ size buffer m, efiError (fw.getMemoryMap size buffer m).1.status = false →
    (fw.getMemoryMap size buffer m).1.mapKey = fw.key (fw.getMemoryMap size buffer m).2
  exit_iff : ∀ image key m,
    efiError (fw.exitBootServices image key m).1 = false ↔ key = fw.key m

/-- A service that leaves the key alone. -/
def KeepsKey {α : Type} (fw : Firmware M) (op : StateM M α) : Prop :=
  ∀ m, fw.key (op m).2 = fw.key m

/-- Nothing but a successful allocation changes the key. -/
structure OnlyAllocationsChangeKey (fw : Firmware M) : Prop where
  print : KeepsKey fw fw.print
  handleProtocol : ∀ image, KeepsKey fw (fw.handleProtocol image)
  libOpenRoot : ∀ device, KeepsKey fw (fw.libOpenRoot device)
  locateGop : KeepsKey fw fw.locateGop
  queryMode : ∀ gop mode, KeepsKey fw (fw.queryMode gop mode)
  setMode : ∀ gop mode, KeepsKey fw (fw.setMode gop mode)
  getMemoryMap : ∀ size buffer, KeepsKey fw (fw.getMemoryMap size buffer)
  openKernel : ∀ volume, KeepsKey fw (fw.openKernel volume)
  setPosition : ∀ file position, KeepsKey fw (fw.setPosition file position)
  readFile : ∀ file size buffer, KeepsKey fw (fw.readFile file size buffer)
  failed_pool : ∀ type size m, efiError (fw.allocatePool type size m).1.1 = true →
    fw.key (fw.allocatePool type size m).2 = fw.key m
  failed_pages : ∀ type memoryType pages address m,
    efiError (fw.allocatePages type memoryType pages address m).1.1 = true →
    fw.key (fw.allocatePages type memoryType pages address m).2 = fw.key m

/-! ## The log of calls -/

/-- A call of the bootloader and what the firmware answered. -/
inductive LoaderCall where
  /-- Console output, and the calls that find the graphics device and the boot volume. -/
  | other
  /-- `GetMemoryMap`, with the key it stored. -/
  | getMemoryMap (status : EfiStatus) (mapKey : BitVec 64)
  /-- `AllocatePool`, with the key afterwards. -/
  | allocatePool (status : EfiStatus) (key : BitVec 64)
  /-- `AllocatePages` at an address, with the key afterwards. -/
  | allocatePages (status : EfiStatus) (pages address key : BitVec 64)
  | openKernel (status : EfiStatus)
  | setPosition (status : EfiStatus) (position : BitVec 64)
  /-- `Read`, with the number of bytes asked for and the number returned. -/
  | readFile (status : EfiStatus) (asked returned buffer : BitVec 64)
  /-- `ExitBootServices`, with the key it was given and the key that was current. -/
  | exitBootServices (status : EfiStatus) (given current : BitVec 64)
  deriving DecidableEq, Repr

/-- The machine and the calls made so far, the newest last. -/
structure LoaderState (M : Type) where
  machine : M
  log : List LoaderCall

/-- A program of the bootloader. -/
abbrev Loader (M : Type) := StateM (LoaderState M)

/-- Call a service and log the call. The log entry can depend on the machine before the call, on the
answer and on the machine after it. -/
def callFirmware {α : Type} (op : StateM M α) (entry : M → α → M → LoaderCall) : Loader M α :=
  fun s =>
    ((op s.machine).1,
      { machine := (op s.machine).2,
        log := s.log ++ [entry s.machine (op s.machine).1 (op s.machine).2] })

/-- Look at the machine without a call. -/
def lookAt {α : Type} (view : M → α) : Loader M α :=
  fun s => (view s.machine, s)

/-- A call that neither allocates nor touches the kernel file. -/
def callOther {α : Type} (op : StateM M α) : Loader M α :=
  callFirmware op fun _ _ _ => .other

variable (fw : Firmware M)

def callAllocatePool (poolType : BitVec 32) (size : BitVec 64) :
    Loader M (EfiStatus × BitVec 64) :=
  callFirmware (fw.allocatePool poolType size) fun _ answer m => .allocatePool answer.1 (fw.key m)

def callAllocatePages (type memoryType : BitVec 32) (pages address : BitVec 64) :
    Loader M (EfiStatus × BitVec 64) :=
  callFirmware (fw.allocatePages type memoryType pages address)
    fun _ answer m => .allocatePages answer.1 pages address (fw.key m)

def callGetMemoryMap (mapSize memoryMap : BitVec 64) : Loader M MapAnswer :=
  callFirmware (fw.getMemoryMap mapSize memoryMap)
    fun _ answer _ => .getMemoryMap answer.status answer.mapKey

def callOpenKernel (volume : BitVec 64) : Loader M (EfiStatus × BitVec 64) :=
  callFirmware (fw.openKernel volume) fun _ answer _ => .openKernel answer.1

def callSetPosition (file position : BitVec 64) : Loader M EfiStatus :=
  callFirmware (fw.setPosition file position) fun _ status _ => .setPosition status position

def callReadFile (file size buffer : BitVec 64) : Loader M (EfiStatus × BitVec 64) :=
  callFirmware (fw.readFile file size buffer)
    fun _ answer _ => .readFile answer.1 size answer.2 buffer

def callExitBootServices (image mapKey : BitVec 64) : Loader M EfiStatus :=
  callFirmware (fw.exitBootServices image mapKey)
    fun m status _ => .exitBootServices status mapKey (fw.key m)

end SiStultum
