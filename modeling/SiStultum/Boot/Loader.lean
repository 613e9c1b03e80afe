import SiStultum.Boot.Firmware

/-!
# The bootloader

`efi_main` sets up graphics, reads the memory map with its key, loads the segments of the kernel
file, leaves boot services with the key it read, and calls the kernel. `getKernelEntry` ignores
the status of every call it makes: only a bad header makes it report an error. Where it goes on to
use a variable that a failed call has not set, the run ends in a `LoaderFault`.
-/

namespace SiStultum

/-- The fields of `Elf64_Ehdr` that the bootloader reads. -/
structure ElfHeader where
  eIdent : BitVec 48
  eType : BitVec 16
  eMachine : BitVec 16
  eVersion : BitVec 32
  eEntry : BitVec 64
  ePhoff : BitVec 64
  ePhentsize : BitVec 16
  ePhnum : BitVec 16
  deriving DecidableEq, Repr

/-- The fields of `Elf64_Phdr` that the bootloader reads. -/
structure ProgramHeader where
  pType : BitVec 32
  pOffset : BitVec 64
  pPaddr : BitVec 64
  pFilesz : BitVec 64
  pMemsz : BitVec 64
  deriving DecidableEq, Repr

/-- An `Elf64_Ehdr` in memory. `eIdent` is the first six bytes of `e_ident`. -/
def elfHeaderAt (mem : ByteMemory) (addr : BitVec 64) : ElfHeader where
  eIdent := mem.read addr 6
  eType := mem.read (addr + 16) 2
  eMachine := mem.read (addr + 18) 2
  eVersion := mem.read (addr + 20) 4
  eEntry := mem.read (addr + 24) 8
  ePhoff := mem.read (addr + 32) 8
  ePhentsize := mem.read (addr + 54) 2
  ePhnum := mem.read (addr + 56) 2

/-- An `Elf64_Phdr` in memory. -/
def programHeaderAt (mem : ByteMemory) (addr : BitVec 64) : ProgramHeader where
  pType := mem.read addr 4
  pOffset := mem.read (addr + 8) 8
  pPaddr := mem.read (addr + 24) 8
  pFilesz := mem.read (addr + 32) 8
  pMemsz := mem.read (addr + 40) 8

/-- The header check: the four magic bytes, `ELFCLASS64`, `ELFDATA2LSB`, `ET_EXEC`, `EM_X86_64` and
`EV_CURRENT`. -/
def ElfHeader.isKernel (headers : ElfHeader) : Bool :=
  headers.eIdent == 0x0102464c457f && headers.eType == 2 && headers.eMachine == 62 &&
    headers.eVersion == 1

def ptLoad : BitVec 32 := 1

/-- `sizeof(Elf64_Ehdr)`. -/
def elfHeaderSize : BitVec 64 := 64

/-- `sizeof(Elf64_Phdr)`, the distance between the elements of `ProgramHeaders`. -/
def programHeaderSize : BitVec 64 := 56

/-- `Headers.e_phnum * Headers.e_phentsize`: a product of two `int` values. -/
def ElfHeader.loadSize (headers : ElfHeader) : BitVec 64 :=
  (headers.ePhnum.setWidth 32 * headers.ePhentsize.setWidth 32).signExtend 64

/-- The number of pages of a segment. -/
def ProgramHeader.pages (header : ProgramHeader) : BitVec 64 :=
  (header.pMemsz + 0x1000 - 1) / 0x1000

/-- `BootInfo`. -/
structure BootInfo where
  fb : FrameBuffer
  mmap : BitVec 64
  mmapSize : BitVec 64
  mmapDescSize : BitVec 64
  deriving DecidableEq, Repr

/-- The use of a local variable that was declared without a value, and that the call before it
failed to set. Nothing can be said of a run from there on. -/
inductive LoaderFault where
  /-- `KernelFile`, which `Open` sets. -/
  | kernelFile
  /-- `ProgramHeaders`, which `AllocatePool` sets. -/
  | programHeaders
  deriving DecidableEq, Repr

/-- How `efi_main` ends: in its endless loop, in the call of the kernel, or in a fault. -/
inductive BootOutcome where
  | halted
  | entered (kernelEntry : BitVec 64) (info : BootInfo)
  | faulted (fault : LoaderFault)
  deriving DecidableEq, Repr

variable {M : Type} (fw : Firmware M)

/-- `GetVolume`. -/
def getVolume (image : BitVec 64) : Loader M (BitVec 64) := do
  let loadedImage ← callOther (fw.handleProtocol image)
  let device ← lookAt (fw.deviceHandle loadedImage)
  callOther (fw.libOpenRoot device)

/-- The mode is set if the device reports that it has not been started. -/
def startGop (gop : BitVec 64) (queried : EfiStatus) : Loader M EfiStatus :=
  if queried = efiNotStarted then callOther (fw.setMode gop 0) else pure queried

/-- `InitializeGop`: the framebuffer, or the status of the failure. -/
def initializeGop : Loader M (Except EfiStatus FrameBuffer) := do
  let (located, gop) ← callOther fw.locateGop
  if efiError located ∨ gop = 0 then
    return .error efiNotFound
  else
    let mode ← lookAt (fw.gopMode gop)
    let queried ← callOther (fw.queryMode gop mode)
    let status ← startGop fw gop queried
    if efiError status then
      return .error status
    else
      let frameBuffer ← lookAt (fw.gopFrameBuffer gop)
      return .ok frameBuffer

/-- `AllocatePool` of the EFI library: NULL when the firmware reports an error. -/
def libAllocatePool (size : BitVec 64) : Loader M (BitVec 64) := do
  let (status, buffer) ← callAllocatePool fw fw.poolType size
  return if efiError status then 0 else buffer

/-- What `GetMemoryMap` leaves: the buffer and the three output parameters. -/
structure LoadedMap where
  memoryMap : BitVec 64
  mapSize : BitVec 64
  mapKey : BitVec 64
  descriptorSize : BitVec 64
  deriving DecidableEq, Repr

/-- The loop of `GetMemoryMap`, in at most `fuel` rounds. The outer option is `none` when the fuel
runs out, and the inner one stands for the result NULL. -/
def getMemoryMapLoop : Nat → BitVec 64 → Loader M (Option (Option LoadedMap))
  | 0, _ => return none
  | fuel + 1, mapSize => do
      let memoryMap ← libAllocatePool fw mapSize
      let answer ← callGetMemoryMap fw mapSize memoryMap
      if answer.status = efiBufferTooSmall then
        getMemoryMapLoop fuel answer.mapSize
      else if efiError answer.status ∨ memoryMap = 0 then
        return some none
      else
        return some (some ⟨memoryMap, answer.mapSize, answer.mapKey, answer.descriptorSize⟩)

/-- The loop of `GetKernelEntry` over the remaining program headers, from index `i` on. -/
def loadSegments (file programHeaders : BitVec 64) : (i remaining : Nat) → Loader M Unit
  | _, 0 => return ()
  | i, remaining + 1 => do
      let addr := programHeaders + programHeaderSize * BitVec.ofNat 64 i
      let header ← lookAt fun m => programHeaderAt (fw.memory m) addr
      if header.pType = ptLoad then
        let (_, segment) ←
          callAllocatePages fw allocateAddress efiLoaderData header.pages header.pPaddr
        let position ← lookAt fun m => (programHeaderAt (fw.memory m) addr).pOffset
        let _ ← callSetPosition fw file position
        let _ ← callReadFile fw file header.pFilesz segment
        loadSegments file programHeaders (i + 1) remaining
      else
        loadSegments file programHeaders (i + 1) remaining

/-- Go on with the variable whose address was passed for the output parameter of a call. Only a call
that succeeds has set it. -/
def useParam {α : Type} (answer : EfiStatus × BitVec 64) (fault : LoaderFault)
    (next : BitVec 64 → Loader M (Except LoaderFault α)) : Loader M (Except LoaderFault α) :=
  if efiError answer.1 then return .error fault else next answer.2

/-- `GetKernelEntry` once the header has passed the check. The program headers are read to where
`AllocatePool` has put them. -/
def loadImage (file : BitVec 64) (headers : ElfHeader) (status : EfiStatus) :
    Loader M (Except LoaderFault (EfiStatus × BitVec 64)) := do
  let allocated ← callAllocatePool fw efiLoaderData headers.loadSize
  let _ ← callSetPosition fw file headers.ePhoff
  useParam allocated .programHeaders fun programHeaders => do
    let _ ← callReadFile fw file headers.loadSize programHeaders
    loadSegments fw file programHeaders 0 headers.ePhnum.toNat
    return .ok (status, headers.eEntry)

/-- `GetKernelEntry` from the first read of the file on. What is checked is the memory of the local
`Headers` at `stack`, whatever the read has put there. -/
def loadKernel (file stack : BitVec 64) (status : EfiStatus) :
    Loader M (Except LoaderFault (EfiStatus × BitVec 64)) := do
  let _ ← callReadFile fw file elfHeaderSize stack
  let headers ← lookAt fun m => elfHeaderAt (fw.memory m) stack
  if headers.isKernel then
    loadImage fw file headers status
  else
    return .ok (efiLoadError, 0)

/-- `GetKernelEntry`: the status it leaves in `*Status`, and the entry point. -/
def getKernelEntry (image stack : BitVec 64) (status : EfiStatus) :
    Loader M (Except LoaderFault (EfiStatus × BitVec 64)) := do
  let volume ← getVolume fw image
  let opened ← callOpenKernel fw volume
  useParam opened .kernelFile fun file => loadKernel fw file stack status

/-- `sizeof(EFI_MEMORY_DESCRIPTOR)`, the first size that `GetMemoryMap` tries. -/
def efiDescriptorSize : BitVec 64 := 40

/-- The part of `efi_main` after the memory map has been read. -/
def enterKernel (image stack : BitVec 64) (frameBuffer : FrameBuffer) (map : LoadedMap) :
    Loader M BootOutcome := do
  callOther fw.print
  let loaded ← getKernelEntry fw image stack efiSuccess
  match loaded with
  | .error fault => return .faulted fault
  | .ok (status, kernelEntry) =>
      if efiError status then
        callOther fw.print
        return .halted
      else
        let _ ← callExitBootServices fw image map.mapKey
        return .entered kernelEntry
          { fb := frameBuffer, mmap := map.memoryMap, mmapSize := map.mapSize,
            mmapDescSize := map.descriptorSize }

/-- `efi_main`, with at most `fuel` rounds of the loop of `GetMemoryMap`; `none` when they do not
suffice. -/
def efiMain (fuel : Nat) (image stack : BitVec 64) : Loader M (Option BootOutcome) := do
  callOther fw.print
  let graphics ← initializeGop fw
  match graphics with
  | .error _ =>
      callOther fw.print
      return some .halted
  | .ok frameBuffer =>
      callOther fw.print
      let loaded ← getMemoryMapLoop fw fuel efiDescriptorSize
      match loaded with
      | none => return none
      | some none =>
          callOther fw.print
          return some .halted
      | some (some map) =>
          let outcome ← enterKernel fw image stack frameBuffer map
          return some outcome

end SiStultum
