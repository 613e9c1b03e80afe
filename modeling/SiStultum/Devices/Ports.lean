import SiStultum.Library.Pic
import SiStultum.Library.PortPrograms
import SiStultum.Library.Timer
import SiStultum.Library.Uart

/-!
# The ports

`deviceBus` connects the ports to the devices of the machine. The rest is `port_io.c` and the inline
functions of `port_io.h`: the initialisation of the two interrupt controllers, their masks, and the
end of an interrupt.

`pic_remap_delivers` says under which vectors the interrupts arrive after `PIC_remap`,
`mask_calls_masked` which lines a sequence of calls has masked, and `pic_send_eoi_ends_iff` when
`PIC_sendEOI` ends the interrupt that the processor has taken.
-/

namespace SiStultum

open PortPrograms PortPrograms.Program

/-- The devices behind the ports that the kernel uses. -/
structure Devices where
  pics : Pic.Pair
  uart : Uart.Port
  pit : Timer.Channel
  /-- The last code of the keyboard. -/
  scancode : BitVec 8

/-- The memory that the handlers share with the rest of the kernel. -/
structure KernelMemory where
  msCount : BitVec 64
  deriving DecidableEq

abbrev KernelWorld := World Devices KernelMemory

/-- `COM1_PORT`. -/
def com1Port : BitVec 16 := 0x3f8

def pic1Command : BitVec 16 := 0x20

def pic1Data : BitVec 16 := 0x21

def pic2Command : BitVec 16 := 0xA0

def pic2Data : BitVec 16 := 0xA1

/-- The data port of the keyboard. -/
def keyboardData : BitVec 16 := 0x60

/-- The ports of the devices. Nothing answers at the other ones. -/
def deviceBus : Bus Devices where
  inb port devices :=
    if port = pic1Command then (devices.pics.master.irr, devices)
    else if port = pic1Data then (devices.pics.master.imr, devices)
    else if port = pic2Command then (devices.pics.slave.irr, devices)
    else if port = pic2Data then (devices.pics.slave.imr, devices)
    else if port = keyboardData then (devices.scancode, devices)
    else if com1Port ≤ port ∧ port < com1Port + 8 then
      ((devices.uart.read (port - com1Port).toNat).1,
        { devices with uart := (devices.uart.read (port - com1Port).toNat).2 })
    else (0xff, devices)
  outb port value devices :=
    if port = pic1Command then
      { devices with pics.master := devices.pics.master.command value }
    else if port = pic1Data then { devices with pics.master := devices.pics.master.data value }
    else if port = pic2Command then
      { devices with pics.slave := devices.pics.slave.command value }
    else if port = pic2Data then { devices with pics.slave := devices.pics.slave.data value }
    else if port = 0x43 then { devices with pit := devices.pit.command value }
    else if port = 0x40 then { devices with pit := devices.pit.data value }
    else if com1Port ≤ port ∧ port < com1Port + 8 then
      { devices with uart := devices.uart.write (port - com1Port).toNat value }
    else devices

/-- `PIC_EOI`. -/
def picEoi : BitVec 8 := 0x20

def icw1Icw4 : BitVec 8 := 0x01

def icw1Init : BitVec 8 := 0x10

/-- `ICW4_8086`. -/
def icw4Mode : BitVec 8 := 0x01

/-- `io_wait`. -/
def ioWait : Program KernelMemory Unit :=
  write 0x80 0

/-- `PIC_remap`. -/
def picRemap (offset1 offset2 : BitVec 32) : Program KernelMemory Unit := do
  let a1 ← read pic1Data
  let a2 ← read pic2Data
  write pic1Command (icw1Init ||| icw1Icw4)
  ioWait
  write pic2Command (icw1Init ||| icw1Icw4)
  ioWait
  write pic1Data (offset1.setWidth 8)
  ioWait
  write pic2Data (offset2.setWidth 8)
  ioWait
  write pic1Data 4
  ioWait
  write pic2Data 2
  ioWait
  write pic1Data icw4Mode
  ioWait
  write pic2Data icw4Mode
  ioWait
  write pic1Data a1
  write pic2Data a2

/-- The controller of a line, and the number of the line there. -/
def lineOf (irqLine : BitVec 8) : BitVec 16 × BitVec 8 :=
  if irqLine < 8 then (pic1Data, irqLine) else (pic2Data, irqLine - 8)

/-- Read a mask and write it back. `1 << IRQline` is defined for 31 places at most. -/
def irqUpdateMask (update : BitVec 32 → BitVec 32 → BitVec 32) (irqLine : BitVec 8) :
    Program KernelMemory Unit :=
  if (lineOf irqLine).2 < 32 then do
    let mask ← read (lineOf irqLine).1
    write (lineOf irqLine).1
      ((update (mask.setWidth 32) (1#32 <<< (lineOf irqLine).2.toNat)).setWidth 8)
  else .abort

/-- `IRQ_set_mask`. -/
def irqSetMask : BitVec 8 → Program KernelMemory Unit :=
  irqUpdateMask fun mask bit => mask ||| bit

/-- `IRQ_clear_mask`. -/
def irqClearMask : BitVec 8 → Program KernelMemory Unit :=
  irqUpdateMask fun mask bit => mask &&& ~~~bit

/-- `PIC_sendEOI`. -/
def picSendEoi (irq : BitVec 8) : Program KernelMemory Unit := do
  if 8 ≤ irq then write pic2Command picEoi
  write pic1Command picEoi

/-! ## The initialisation -/

/-- A chip after `PIC_remap`. -/
def initialised (chip : Pic.Chip) (base cascade : BitVec 8) : Pic.Chip where
  irr := 0
  isr := 0
  imr := chip.imr
  base := base
  cascade := cascade
  autoEoi := false
  phase := .ready
  single := false
  fourth := true

/-- The two chips after `PIC_remap`, which may be in the middle of an initialisation before it. -/
def remapped (offset1 offset2 : BitVec 32) (pics : Pic.Pair) : Pic.Pair where
  master := initialised pics.master (offset1.setWidth 8 &&& 0xf8) 4
  slave := initialised pics.slave (offset2.setWidth 8 &&& 0xf8) 2

/-- `PIC_remap` initialises both controllers and restores their masks. -/
theorem exec_pic_remap (offset1 offset2 : BitVec 32) (world : KernelWorld) :
    exec deviceBus (picRemap offset1 offset2) world =
      some ((), { world with
        devices := { world.devices with
          pics := remapped offset1 offset2 world.devices.pics } }) :=
  rfl

/-- The vector of a line, for an offset that is a multiple of 8. -/
theorem base_or_line {offset : BitVec 32} (hoffset : offset.toNat % 8 = 0) {line : Nat}
    (hline : line < 8) :
    (offset.setWidth 8 &&& 0xf8) ||| BitVec.ofNat 8 line =
      BitVec.ofNat 8 (offset.toNat + line) := by
  have hbase : offset.setWidth 8 &&& 0xf8 = offset.setWidth 8 := by
    apply BitVec.eq_of_getLsbD_eq
    intro i hi
    rw [BitVec.getLsbD_and]
    by_cases hlow : i < 3
    · have hclear : (offset.setWidth 8).getLsbD i = false := by
        have hzero : (offset.toNat % 2 ^ 3).testBit i = false := by
          rw [show offset.toNat % 2 ^ 3 = 0 from hoffset, Nat.zero_testBit]
        rw [Nat.testBit_mod_two_pow, decide_eq_true hlow, Bool.true_and] at hzero
        rw [BitVec.getLsbD_setWidth, BitVec.getLsbD, hzero, Bool.and_false]
      rw [hclear, Bool.false_and]
    · have hhigh : ∀ i < 8, ¬ i < 3 → (0xf8 : BitVec 8).getLsbD i = true := by decide
      rw [hhigh i hi hlow, Bool.and_true]
  apply BitVec.eq_of_toNat_eq
  have hsmall : line % 2 ^ 8 = line := Nat.mod_eq_of_lt (by omega)
  have hquot : offset.toNat % 2 ^ 8 = 2 ^ 3 * (offset.toNat % 2 ^ 8 / 2 ^ 3) := by omega
  rw [hbase, BitVec.toNat_or, BitVec.toNat_setWidth, BitVec.toNat_ofNat, BitVec.toNat_ofNat, hsmall,
    hquot, ← Nat.two_pow_add_eq_or_of_lt (by omega)]
  omega

/-- The vector under which an interrupt arrives after `PIC_remap`. -/
def vectorOf (offset1 offset2 : BitVec 32) (line : Fin 16) : BitVec 8 :=
  if line.val < 8 then BitVec.ofNat 8 (offset1.toNat + line.val)
  else BitVec.ofNat 8 (offset2.toNat + (line.val - 8))

/-- `PIC_remap`, from any state of the controllers, keeps the masks, and the next request of an
unmasked line arrives under the vector that its offset gives. Line 2 is the second controller's. -/
theorem pic_remap_delivers (offset1 offset2 : BitVec 32) (hoffset1 : offset1.toNat % 8 = 0)
    (hoffset2 : offset2.toNat % 8 = 0) (world : KernelWorld) :
    ∃ after, Completes deviceBus (picRemap offset1 offset2) world () after ∧
      (∀ line, after.devices.pics.masked line = world.devices.pics.masked line) ∧
      after.devices.pics.accept = none ∧
      ∀ line : Fin 16, line ≠ 2 → world.devices.pics.masked line = false →
        (8 ≤ line.val → world.devices.pics.masked 2 = false) →
        (after.devices.pics.raise line).accept.map Prod.fst =
          some (vectorOf offset1 offset2 line) := by
  refine ⟨_, Completes.of_exec (exec_pic_remap offset1 offset2 world), fun line => rfl,
    Pic.accept_idle ⟨rfl, rfl, rfl⟩ ⟨rfl, rfl, rfl⟩, ?_⟩
  intro line _ hline hcascade
  have hvector : (remapped offset1 offset2 world.devices.pics).vector line =
      vectorOf offset1 offset2 line := by
    rw [Pic.Pair.vector, vectorOf]
    split
    · next hlow => exact base_or_line hoffset1 hlow
    · exact base_or_line hoffset2 (by omega)
  rw [← hvector]
  exact Pic.accept_raise ⟨rfl, rfl, rfl⟩ ⟨rfl, rfl, rfl⟩ hline hcascade

/-- Devices before any initialisation, with the first chip waiting for a word and all lines masked
but those of the keyboard, of the second chip and of the mouse. -/
def coldDevices : Devices where
  pics := ⟨⟨0xff, 0x80, 0xf9, 0x08, 0, true, .icw3, false, true⟩,
    ⟨0, 0, 0xef, 0x70, 0, false, .ready, false, false⟩⟩
  uart := ⟨0, 0, 0, 0, false, [], [], [], [], [], [], id⟩
  pit := ⟨0, 0, none, false⟩
  scancode := 0

/-- The remap of `init_idt`, on controllers as the firmware may leave them. -/
theorem kernel_remap_delivers :
    ∃ after, Completes deviceBus (picRemap 0x20 0x28) ⟨coldDevices, ⟨0⟩, false⟩ () after ∧
      (∀ line, after.devices.pics.masked line = coldDevices.pics.masked line) ∧
      after.devices.pics.accept = none ∧
      ∀ line : Fin 16, line ≠ 2 → coldDevices.pics.masked line = false →
        (8 ≤ line.val → coldDevices.pics.masked 2 = false) →
        (after.devices.pics.raise line).accept.map Prod.fst = some (vectorOf 0x20 0x28 line) :=
  pic_remap_delivers 0x20 0x28 (by decide) (by decide) ⟨coldDevices, ⟨0⟩, false⟩

/-! ## The masks -/

/-- A call that changes a mask. -/
inductive MaskCall where
  | set (irqLine : BitVec 8)
  | clear (irqLine : BitVec 8)

def MaskCall.line : MaskCall → BitVec 8
  | set irqLine => irqLine
  | clear irqLine => irqLine

def MaskCall.program : MaskCall → Program KernelMemory Unit
  | set irqLine => irqSetMask irqLine
  | clear irqLine => irqClearMask irqLine

/-- The calls in order. -/
def maskCalls : List MaskCall → Program KernelMemory Unit
  | [] => .done ()
  | call :: calls => do
      call.program
      maskCalls calls

/-- What a call means for a line. -/
def MaskCall.masks (line : Fin 16) (masked : Bool) : MaskCall → Bool
  | set irqLine => masked || decide (irqLine.toNat = line.val)
  | clear irqLine => masked && !decide (irqLine.toNat = line.val)

/-- The world with other masks. -/
def withMasks (world : KernelWorld) (first second : BitVec 8) : KernelWorld :=
  { world with
    devices := { world.devices with
      pics := ⟨{ world.devices.pics.master with imr := first },
        { world.devices.pics.slave with imr := second }⟩ } }

/-- Neither controller expects a word of an initialisation. -/
structure Ready (pics : Pic.Pair) : Prop where
  master : pics.master.phase = .ready
  slave : pics.slave.phase = .ready

/-- One change of a mask, where `combine` says what it does to a bit. -/
theorem exec_update_mask {update : BitVec 32 → BitVec 32 → BitVec 32}
    (combine : Bool → Bool → Bool) (hkeep : ∀ bit, combine bit false = bit)
    (hupdate : ∀ (mask : BitVec 8) (n i : Nat), i < 8 → n < 32 →
      ((update (mask.setWidth 32) (1#32 <<< n)).setWidth 8).getLsbD i =
        combine (mask.getLsbD i) (decide (n = i)))
    {irqLine : BitVec 8} (hline : irqLine.toNat < 40) {world : KernelWorld}
    (hready : Ready world.devices.pics) :
    ∃ first second, exec deviceBus (irqUpdateMask update irqLine) world =
        some ((), withMasks world first second) ∧
      ∀ line, (withMasks world first second).devices.pics.masked line =
        combine (world.devices.pics.masked line) (decide (irqLine.toNat = line.val)) := by
  by_cases hfirst : irqLine < 8
  · have hsmall : irqLine.toNat < 8 := hfirst
    have hof : lineOf irqLine = (pic1Data, irqLine) := if_pos hfirst
    have hdefined : irqLine < 32 := Nat.lt_of_lt_of_le hsmall (by decide)
    refine ⟨(update (world.devices.pics.master.imr.setWidth 32)
      (1#32 <<< irqLine.toNat)).setWidth 8, world.devices.pics.slave.imr, ?_, fun line => ?_⟩
    · rw [irqUpdateMask, hof, if_pos hdefined]
      show some ((), { world with devices := { world.devices with
        pics.master := world.devices.pics.master.data _ } }) = _
      rw [Pic.data_ready hready.master]
      rfl
    · simp only [withMasks, Pic.Pair.masked]
      split
      · next hlow => exact hupdate _ _ _ hlow (by omega)
      · have hother : irqLine.toNat ≠ line.val := by omega
        rw [decide_eq_false hother, hkeep]
  · have hlarge : 8 ≤ irqLine.toNat := Nat.le_of_not_lt hfirst
    have hof : lineOf irqLine = (pic2Data, irqLine - 8) := if_neg hfirst
    have hplace : (irqLine - 8).toNat = irqLine.toNat - 8 := by bv_omega
    have hdefined : irqLine - 8 < 32 := by
      show (irqLine - 8).toNat < 32
      omega
    refine ⟨world.devices.pics.master.imr, (update (world.devices.pics.slave.imr.setWidth 32)
      (1#32 <<< (irqLine - 8).toNat)).setWidth 8, ?_, fun line => ?_⟩
    · rw [irqUpdateMask, hof, if_pos hdefined]
      show some ((), { world with devices := { world.devices with
        pics.slave := world.devices.pics.slave.data _ } }) = _
      rw [Pic.data_ready hready.slave]
      rfl
    · simp only [withMasks, Pic.Pair.masked]
      split
      · have hother : irqLine.toNat ≠ line.val := by omega
        rw [decide_eq_false hother, hkeep]
      · next hhigh =>
        have hsame : (irqLine - 8).toNat = line.val - 8 ↔ irqLine.toNat = line.val := by omega
        rw [hupdate _ _ _ (by omega) (by omega), decide_eq_decide.mpr hsame]

/-- One call. -/
theorem exec_mask_call {call : MaskCall} (hline : call.line.toNat < 40) {world : KernelWorld}
    (hready : Ready world.devices.pics) :
    ∃ first second, exec deviceBus call.program world =
        some ((), withMasks world first second) ∧
      ∀ line, (withMasks world first second).devices.pics.masked line =
        call.masks line (world.devices.pics.masked line) := by
  have hbit : ∀ n i : Nat, i < 8 → n < 32 →
      (1#32 <<< n).getLsbD i = decide (n = i) := by
    intro n i hi hn
    rw [BitVec.getLsbD_shiftLeft]
    by_cases hsame : n = i
    · subst hsame
      simp [hn]
    · by_cases hlt : i < n
      · simp [hsame, hlt]
      · have hfar : i - n ≠ 0 := by omega
        simp [hsame, hfar]
  cases call with
  | set irqLine =>
      refine exec_update_mask (fun masked bit => masked || bit) Bool.or_false ?_ hline hready
      intro mask n i hi hn
      rw [BitVec.getLsbD_setWidth, BitVec.getLsbD_or, hbit n i hi hn, BitVec.getLsbD_setWidth]
      simp [hi, Nat.lt_trans hi (show 8 < 32 by decide)]
  | clear irqLine =>
      show ∃ first second, exec deviceBus (irqUpdateMask (fun mask bit => mask &&& ~~~bit) irqLine)
        world = some ((), withMasks world first second) ∧
        ∀ line, (withMasks world first second).devices.pics.masked line =
          (world.devices.pics.masked line && !decide (irqLine.toNat = line.val))
      refine exec_update_mask (fun masked bit => masked && !bit) Bool.and_true ?_ hline hready
      intro mask n i hi hn
      rw [BitVec.getLsbD_setWidth, BitVec.getLsbD_and, BitVec.getLsbD_not, hbit n i hi hn,
        BitVec.getLsbD_setWidth]
      simp [hi, Nat.lt_trans hi (show 8 < 32 by decide)]

/-- A sequence of calls masks the lines for which the last call does so, and changes nothing
else. -/
theorem mask_calls_masked {calls : List MaskCall} (hlines : ∀ call ∈ calls, call.line.toNat < 40)
    {world : KernelWorld} (hready : Ready world.devices.pics) :
    ∃ first second, Completes deviceBus (maskCalls calls) world ()
        (withMasks world first second) ∧
      ∀ line, (withMasks world first second).devices.pics.masked line =
        calls.foldl (fun masked call => call.masks line masked)
          (world.devices.pics.masked line) := by
  induction calls generalizing world with
  | nil => exact ⟨_, _, .done () world, fun line => rfl⟩
  | cons call calls ih =>
      obtain ⟨first, second, hcall, hmasks⟩ :=
        exec_mask_call (hlines call List.mem_cons_self) hready
      have hkept : Ready (withMasks world first second).devices.pics :=
        ⟨hready.master, hready.slave⟩
      obtain ⟨third, fourth, hrest, hfold⟩ :=
        ih (fun other hother => hlines other (List.mem_cons_of_mem call hother)) hkept
      refine ⟨third, fourth, (Completes.of_exec hcall).bind hrest, fun line => ?_⟩
      rw [List.foldl_cons, ← hmasks line]
      exact hfold line

/-- The devices after `PIC_remap`. -/
def remappedDevices : Devices :=
  { coldDevices with pics := remapped 0x20 0x28 coldDevices.pics }

/-- The keyboard's line masked and cleared again, the mouse's line masked, and a line that does not
exist. -/
theorem mouse_masked :
    ∃ first second, Completes deviceBus (maskCalls [.set 1, .set 12, .clear 1, .set 17])
        ⟨remappedDevices, ⟨0⟩, false⟩ () (withMasks ⟨remappedDevices, ⟨0⟩, false⟩ first second) ∧
      ∀ line, (withMasks ⟨remappedDevices, ⟨0⟩, false⟩ first second).devices.pics.masked line =
        [MaskCall.set 1, .set 12, .clear 1, .set 17].foldl
          (fun masked call => call.masks line masked) (remappedDevices.pics.masked line) :=
  mask_calls_masked (by decide) ⟨rfl, rfl⟩

/-! ## The end of an interrupt -/

/-- `PIC_sendEOI`. -/
theorem exec_pic_send_eoi (irq : BitVec 8) (world : KernelWorld) :
    exec deviceBus (picSendEoi irq) world =
      some ((), { world with
        devices := { world.devices with
          pics := ⟨world.devices.pics.master.endOfInterrupt,
            if 8 ≤ irq then world.devices.pics.slave.endOfInterrupt
            else world.devices.pics.slave⟩ } }) := by
  rw [picSendEoi]
  split <;> rfl

/-- After the processor has taken an interrupt, `PIC_sendEOI` puts both controllers back where they
were before exactly when its argument names a line of the controller that the interrupt came from;
the second controller may also be told when it has no line in service. -/
theorem pic_send_eoi_ends_iff {world : KernelWorld} {pics : Pic.Pair} {vector : BitVec 8}
    (haccept : pics.accept = some (vector, world.devices.pics))
    (hmaster : pics.master.autoEoi = false) (hslave : pics.slave.autoEoi = false)
    (irq : BitVec 8) :
    ∃ after, Completes deviceBus (picSendEoi irq) world () after ∧
      ((after.devices.pics.master.isr = pics.master.isr ∧
          after.devices.pics.slave.isr = pics.slave.isr) ↔
        if 8 ≤ irq then pics.Cascaded ∨ pics.slave.isr = 0 else ¬ pics.Cascaded) := by
  refine ⟨_, Completes.of_exec (exec_pic_send_eoi irq world), ?_⟩
  have hauto : pics.front.autoEoi = false := by
    rw [Pic.Pair.front]
    split <;> exact hmaster
  have hfront : pics.front.isr = pics.master.isr := by
    rw [Pic.Pair.front]
    split <;> rfl
  show (world.devices.pics.master.endOfInterrupt.isr = pics.master.isr ∧
    (if 8 ≤ irq then world.devices.pics.slave.endOfInterrupt
      else world.devices.pics.slave).isr = pics.slave.isr) ↔ _
  obtain ⟨hcascaded, line, hrequest, -, hpics⟩ | ⟨hcascaded, line, hrequest, -, hpics⟩ :=
    Pic.accept_cases haccept
  · have hfirst : world.devices.pics.master.endOfInterrupt.isr = pics.master.isr := by
      rw [hpics, ← hfront]
      exact Pic.eoi_acknowledge hcascaded.1 hauto
    rw [hpics] at hfirst ⊢
    split
    · exact ⟨fun _ => .inl hcascaded, fun _ => ⟨hfirst, Pic.eoi_acknowledge hrequest hslave⟩⟩
    · exact ⟨fun h => absurd h.2 (Pic.acknowledge_isr_ne hrequest hslave),
        fun hnot => absurd hcascaded hnot⟩
  · have hfirst : world.devices.pics.master.endOfInterrupt.isr = pics.master.isr := by
      rw [hpics, ← hfront]
      exact Pic.eoi_acknowledge hrequest hauto
    rw [hpics] at hfirst ⊢
    split
    · rw [Pic.end_of_interrupt_eq_iff]
      exact ⟨fun h => .inr h.2, fun h => ⟨hfirst, h.resolve_left hcascaded⟩⟩
    · exact ⟨fun _ => hcascaded, fun _ => ⟨hfirst, rfl⟩⟩

/-- A request of line 12, as the processor takes it. -/
def mousePics : Pic.Pair :=
  remappedDevices.pics.raise 12

/-- The end of an interrupt from the mouse. -/
theorem mouse_ended :
    ∃ after, Completes deviceBus (picSendEoi 12)
        ⟨{ remappedDevices with pics := (mousePics.acknowledge 2).2 }, ⟨0⟩, false⟩ () after ∧
      ((after.devices.pics.master.isr = mousePics.master.isr ∧
          after.devices.pics.slave.isr = mousePics.slave.isr) ↔
        if (8 : BitVec 8) ≤ 12 then mousePics.Cascaded ∨ mousePics.slave.isr = 0
        else ¬ mousePics.Cascaded) :=
  pic_send_eoi_ends_iff
    (show mousePics.accept = some (0x2c, (mousePics.acknowledge 2).2) by decide +kernel) rfl rfl 12

end SiStultum
