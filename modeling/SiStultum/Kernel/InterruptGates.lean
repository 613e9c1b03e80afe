import SiStultum.Library.ByteMemory
import SiStultum.PageFrames.FirstFit

/-!
# The interrupt gates

`init_idt` takes a frame for the table and stores five gates in it. Nothing clears the other
entries, which keep what the frame held before (`init_idt_only_installed_iff`).
-/

namespace SiStultum

/-- `IDTDescriptor`. -/
structure IDTDescriptor where
  size : BitVec 16
  offset : BitVec 64
  deriving DecidableEq

/-- `IDTEntry`, in the order of its bytes. -/
structure IDTEntry where
  offset0 : BitVec 16
  selector : BitVec 16
  ist : BitVec 8
  typeAttributes : BitVec 8
  offset1 : BitVec 16
  offset2 : BitVec 32
  zero : BitVec 32
  deriving DecidableEq

def idtInterruptGate : BitVec 8 := 0x8E

def idtTrapGate : BitVec 8 := 0x8F

/-- `IDT_CREATE_ENTRY`. -/
def idtCreateEntry (offset : BitVec 64) (selector : BitVec 16) (ist typeAttr : BitVec 8) :
    IDTEntry where
  offset0 := (offset &&& 0xffff).setWidth 16
  offset1 := ((offset >>> 16) &&& 0xffff).setWidth 16
  offset2 := ((offset >>> 32) &&& 0xffffffff).setWidth 32
  selector := selector
  ist := ist
  typeAttributes := if typeAttr = idtInterruptGate ∨ typeAttr = idtTrapGate then typeAttr else 0
  zero := 0

/-- The sixteen bytes of the packed structure, the first one least significant. -/
def IDTEntry.bytes (entry : IDTEntry) : BitVec (8 * 16) :=
  entry.zero ++ entry.offset2 ++ entry.offset1 ++ entry.typeAttributes ++ entry.ist ++
    entry.selector ++ entry.offset0

/-- The address of an entry of a table. -/
def gateAddr (table : BitVec 64) (vector : BitVec 8) : BitVec 64 :=
  table + vector.setWidth 64 * 16

/-- `*(IDTEntry *)(table + vector * sizeof(IDTEntry)) = entry`. -/
def storeGate (mem : ByteMemory) (table : BitVec 64) (vector : BitVec 8) (entry : IDTEntry) :
    ByteMemory :=
  mem.write (gateAddr table vector) 16 entry.bytes

/-- The addresses of the handlers that `init_idt` installs. -/
structure Handlers where
  pageFault : BitVec 64
  doubleFault : BitVec 64
  generalProtectionFault : BitVec 64
  timer : BitVec 64
  keyboard : BitVec 64

/-- The memory, the allocator, `IDTR`, and the descriptor that `set_idt` loads. -/
structure IdtState where
  mem : ByteMemory
  ppa : PpaState
  idtr : IDTDescriptor
  loaded : Option IDTDescriptor

/-- `init_idt`, up to the set-up of the interrupt controller and the timer. -/
def initIdt (handlers : Handlers) (s : IdtState) : IdtState :=
  let (offset, ppa) := ppaRequest s.ppa
  let idtr : IDTDescriptor := ⟨0x0fff, offset⟩
  let mem := storeGate s.mem idtr.offset 0xE
    (idtCreateEntry handlers.pageFault 0x08 0 idtInterruptGate)
  let mem := storeGate mem idtr.offset 0x8
    (idtCreateEntry handlers.doubleFault 0x08 0 idtInterruptGate)
  let mem := storeGate mem idtr.offset 0xD
    (idtCreateEntry handlers.generalProtectionFault 0x08 0 idtInterruptGate)
  let mem := storeGate mem idtr.offset 0x20
    (idtCreateEntry handlers.timer 0x08 0 idtInterruptGate)
  let mem := storeGate mem idtr.offset 0x21
    (idtCreateEntry handlers.keyboard 0x08 0 idtInterruptGate)
  { mem := mem, ppa := ppa, idtr := idtr, loaded := some idtr }

/-! ## What the processor reads -/

/-- An entry of the table. -/
def gateAt (mem : ByteMemory) (table : BitVec 64) (vector : BitVec 8) : BitVec (8 * 16) :=
  mem.read (gateAddr table vector) 16

/-- The handler of a gate: bytes 0 and 1, 6 and 7, and 8 to 11. -/
def gateOffset (gate : BitVec (8 * 16)) : BitVec 64 :=
  gate.extractLsb' 64 32 ++ gate.extractLsb' 48 16 ++ gate.extractLsb' 0 16

/-- The code segment selector of a gate: bytes 2 and 3. -/
def gateSelector (gate : BitVec (8 * 16)) : BitVec 16 :=
  gate.extractLsb' 16 16

/-- The type byte of a gate: byte 5. -/
def gateType (gate : BitVec (8 * 16)) : BitVec 8 :=
  gate.extractLsb' 40 8

/-- The present bit of a gate, bit 7 of its type byte. -/
def gatePresent (gate : BitVec (8 * 16)) : Bool :=
  (gateType gate).getLsbD 7

/-- A present interrupt gate for a handler in the kernel's code segment. -/
structure InterruptGate (gate : BitVec (8 * 16)) (handler : BitVec 64) : Prop where
  offset : gateOffset gate = handler
  selector : gateSelector gate = 0x08
  type : gateType gate = 0x8E

/-- The handler that belongs to a vector. -/
def Handlers.ofVector (handlers : Handlers) (vector : BitVec 8) : Option (BitVec 64) :=
  if vector = 0x21 then some handlers.keyboard
  else if vector = 0x20 then some handlers.timer
  else if vector = 0xD then some handlers.generalProtectionFault
  else if vector = 0x8 then some handlers.doubleFault
  else if vector = 0xE then some handlers.pageFault
  else none

/-- The entry of a vector ends inside the table that a descriptor gives. -/
def Covered (idtr : IDTDescriptor) (vector : BitVec 8) : Prop :=
  16 * vector.toNat + 15 ≤ idtr.size.toNat

/-- The table has the gates of the handlers, and no other gate is present. -/
structure OnlyInstalled (handlers : Handlers) (s : IdtState) : Prop where
  gates : ∀ vector handler, handlers.ofVector vector = some handler →
    InterruptGate (gateAt s.mem s.idtr.offset vector) handler
  others : ∀ vector, Covered s.idtr vector → handlers.ofVector vector = none →
    gatePresent (gateAt s.mem s.idtr.offset vector) = false

/-! ## One gate -/

/-- The number that two bit vectors make up. -/
theorem append_to_nat {m n : Nat} (high : BitVec m) (low : BitVec n) :
    (high ++ low).toNat = high.toNat * 2 ^ n + low.toNat := by
  rw [BitVec.toNat_append, ← Nat.shiftLeft_add_eq_or_of_lt low.isLt, Nat.shiftLeft_eq]

/-- The number that a part of a bit vector makes up. -/
theorem extract_to_nat {w : Nat} (value : BitVec w) (start len : Nat) :
    (value.extractLsb' start len).toNat = value.toNat / 2 ^ start % 2 ^ len := by
  rw [BitVec.extractLsb'_toNat, Nat.shiftRight_eq_div_pow]

/-- The bytes of an entry as a number. -/
theorem bytes_to_nat (entry : IDTEntry) :
    entry.bytes.toNat = entry.offset0.toNat + 2 ^ 16 * entry.selector.toNat +
      2 ^ 32 * entry.ist.toNat + 2 ^ 40 * entry.typeAttributes.toNat +
      2 ^ 48 * entry.offset1.toNat + 2 ^ 64 * entry.offset2.toNat + 2 ^ 96 * entry.zero.toNat := by
  rw [IDTEntry.bytes]
  simp only [append_to_nat]
  omega

/-- The fields of an entry are read back from its bytes. -/
theorem bytes_fields (entry : IDTEntry) :
    gateOffset entry.bytes = entry.offset2 ++ entry.offset1 ++ entry.offset0 ∧
      gateSelector entry.bytes = entry.selector ∧ gateType entry.bytes = entry.typeAttributes := by
  have hbytes := bytes_to_nat entry
  have hlow0 := entry.offset0.isLt
  have hlow1 := entry.selector.isLt
  have hlow2 := entry.ist.isLt
  have hlow3 := entry.typeAttributes.isLt
  have hlow4 := entry.offset1.isLt
  have hlow5 := entry.offset2.isLt
  have hoffset0 : entry.bytes.extractLsb' 0 16 = entry.offset0 := by
    apply BitVec.eq_of_toNat_eq
    rw [extract_to_nat, hbytes]
    omega
  have hoffset1 : entry.bytes.extractLsb' 48 16 = entry.offset1 := by
    apply BitVec.eq_of_toNat_eq
    rw [extract_to_nat, hbytes]
    omega
  have hoffset2 : entry.bytes.extractLsb' 64 32 = entry.offset2 := by
    apply BitVec.eq_of_toNat_eq
    rw [extract_to_nat, hbytes]
    omega
  refine ⟨?_, ?_, ?_⟩
  · rw [gateOffset, hoffset0, hoffset1, hoffset2]
  · apply BitVec.eq_of_toNat_eq
    rw [gateSelector, extract_to_nat, hbytes]
    omega
  · apply BitVec.eq_of_toNat_eq
    rw [gateType, extract_to_nat, hbytes]
    omega

/-- The three parts of an address, put together. -/
theorem join_offset (offset : BitVec 64) :
    ((offset >>> 32) &&& 0xffffffff).setWidth 32 ++ ((offset >>> 16) &&& 0xffff).setWidth 16 ++
      (offset &&& 0xffff).setWidth 16 = offset := by
  have hword := offset.isLt
  have hlow : offset.toNat &&& (0xffff : BitVec 64).toNat = offset.toNat % 2 ^ 16 :=
    Nat.and_two_pow_sub_one_eq_mod _ 16
  have hmiddle : (offset.toNat / 2 ^ 16) &&& (0xffff : BitVec 64).toNat =
      offset.toNat / 2 ^ 16 % 2 ^ 16 :=
    Nat.and_two_pow_sub_one_eq_mod _ 16
  have hhigh : (offset.toNat / 2 ^ 32) &&& (0xffffffff : BitVec 64).toNat =
      offset.toNat / 2 ^ 32 % 2 ^ 32 :=
    Nat.and_two_pow_sub_one_eq_mod _ 32
  apply BitVec.eq_of_toNat_eq
  simp only [append_to_nat, BitVec.toNat_setWidth, BitVec.toNat_and, BitVec.toNat_ushiftRight,
    Nat.shiftRight_eq_div_pow, hlow, hmiddle, hhigh]
  omega

/-- What the processor reads of an entry that was made for a handler. -/
theorem create_entry_gate (handler : BitVec 64) :
    InterruptGate (idtCreateEntry handler 0x08 0 idtInterruptGate).bytes handler := by
  obtain ⟨hoffset, hselector, htype⟩ :=
    bytes_fields (idtCreateEntry handler 0x08 0 idtInterruptGate)
  constructor
  case offset =>
    rw [hoffset]
    exact join_offset handler
  case selector => exact hselector
  case type =>
    rw [htype]
    rfl

/-- The gates of two vectors lie apart. -/
theorem gate_addr_disjoint {table : BitVec 64} {vector other : BitVec 8} (hne : vector ≠ other) :
    ByteMemory.Disjoint (gateAddr table vector) 16 (gateAddr table other) 16 := by
  unfold ByteMemory.Disjoint gateAddr
  bv_omega

/-- The gates after one store. -/
theorem gate_at_store (mem : ByteMemory) (table : BitVec 64) (vector other : BitVec 8)
    (entry : IDTEntry) :
    gateAt (storeGate mem table other entry) table vector =
      if vector = other then entry.bytes else gateAt mem table vector := by
  rw [gateAt, storeGate]
  split
  · next hsame =>
    rw [hsame]
    exact ByteMemory.read_write_same (by decide) entry.bytes
  · next hne => exact ByteMemory.read_write_other entry.bytes (gate_addr_disjoint (Ne.symm hne))

/-- A gate after the five stores. -/
theorem gate_at_init (handlers : Handlers) (s : IdtState) (vector : BitVec 8) :
    gateAt (initIdt handlers s).mem (initIdt handlers s).idtr.offset vector =
      match handlers.ofVector vector with
      | some handler => (idtCreateEntry handler 0x08 0 idtInterruptGate).bytes
      | none => gateAt s.mem (ppaRequest s.ppa).1 vector := by
  simp only [initIdt, gate_at_store, Handlers.ofVector]
  split_ifs <;> rfl

/-- After `init_idt` each of the five vectors has the gate of its handler. -/
theorem gates_init (handlers : Handlers) (s : IdtState) (vector : BitVec 8) (handler : BitVec 64)
    (h : handlers.ofVector vector = some handler) :
    InterruptGate (gateAt (initIdt handlers s).mem (initIdt handlers s).idtr.offset vector)
      handler := by
  rw [gate_at_init, h]
  exact create_entry_gate handler

/-- `IDTR.size` covers all 256 entries. -/
theorem covered_init (handlers : Handlers) (s : IdtState) (vector : BitVec 8) :
    Covered (initIdt handlers s).idtr vector := by
  have hvector := vector.isLt
  show 16 * vector.toNat + 15 ≤ 0xfff
  omega

/-- `init_idt` installs its five gates, and leaves no other gate present exactly when none was in
the frame that it takes for the table. -/
theorem init_idt_only_installed_iff (handlers : Handlers) (s : IdtState) :
    (∀ vector handler, handlers.ofVector vector = some handler → InterruptGate
        (gateAt (initIdt handlers s).mem (initIdt handlers s).idtr.offset vector) handler) ∧
      (OnlyInstalled handlers (initIdt handlers s) ↔
        ∀ vector, handlers.ofVector vector = none →
          gatePresent (gateAt s.mem (ppaRequest s.ppa).1 vector) = false) := by
  have hkept : ∀ vector, handlers.ofVector vector = none →
      gateAt (initIdt handlers s).mem (initIdt handlers s).idtr.offset vector =
        gateAt s.mem (ppaRequest s.ppa).1 vector := by
    intro vector hnone
    rw [gate_at_init, hnone]
  refine ⟨gates_init handlers s, ?_, ?_⟩
  · intro honly vector hnone
    rw [← hkept vector hnone]
    exact honly.others vector (covered_init handlers s vector) hnone
  · intro hclear
    refine ⟨gates_init handlers s, fun vector _ hnone => ?_⟩
    rw [hkept vector hnone]
    exact hclear vector hnone

/-- The last frame is free, and memory is full of ones. -/
def staleMemory : IdtState where
  mem _ := 0xff
  ppa := lastFrameFree
  idtr := ⟨0, 0⟩
  loaded := none

/-- Handlers in the kernel's image. -/
def kernelHandlers : Handlers :=
  ⟨0x101000, 0x101100, 0x101200, 0x101300, 0x101400⟩

/-- The gate of vector 0, which has no handler, is present after `init_idt`. -/
theorem stale_gate_present :
    (ppaRequest staleMemory.ppa).1 = 0x20000 ∧ kernelHandlers.ofVector 0 = none ∧
      gatePresent (gateAt (initIdt kernelHandlers staleMemory).mem 0x20000 0) = true ∧
      ¬ OnlyInstalled kernelHandlers (initIdt kernelHandlers staleMemory) := by
  have hframe : (ppaRequest staleMemory.ppa).1 = 0x20000 := by decide
  have hpresent : gatePresent (gateAt (initIdt kernelHandlers staleMemory).mem 0x20000 0) =
      true := by
    have hgate := gate_at_init kernelHandlers staleMemory 0
    have htable : (initIdt kernelHandlers staleMemory).idtr.offset = 0x20000 := hframe
    rw [htable, hframe] at hgate
    rw [hgate]
    decide +kernel
  refine ⟨hframe, rfl, hpresent, fun honly => ?_⟩
  have hclear := honly.others 0 (covered_init _ _ 0) rfl
  rw [show (initIdt kernelHandlers staleMemory).idtr.offset = 0x20000 from hframe, hpresent]
    at hclear
  cases hclear

end SiStultum
