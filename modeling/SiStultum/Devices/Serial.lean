import SiStultum.Devices.Ports
import SiStultum.Formatter.Pieces

/-!
# The serial line and the timer

`serial.c` and `chrono.c`. The loops that wait for the serial port are loops of the program: each
turn reads the line status register, which the port may change in between.

`init_serial_connects_iff` is about the self-test of the port: `_start` does not look at its result,
and a port that fails it stays in loopback mode. `init_pit_period_iff` says for which frequencies
the timer has the period that was asked for.

The macro `serial_printf` has two reads of `ms_count` among the arguments of one call, which C may
make in either order: `ReadOrder`.
-/

namespace SiStultum

open PortPrograms PortPrograms.Program

/-- `serial_transmit_empty`. -/
def serialTransmitEmpty : Program KernelMemory (BitVec 8) := do
  let status ← read (com1Port + 5)
  pure (status &&& 0x20)

/-- `init_serial`. -/
def initSerial : Program KernelMemory (BitVec 32) := do
  write (com1Port + 1) 0x00
  write (com1Port + 3) 0x80
  write (com1Port + 0) 0x03
  write (com1Port + 1) 0x00
  write (com1Port + 3) 0x03
  write (com1Port + 2) 0xC7
  write (com1Port + 4) 0x0B
  write (com1Port + 4) 0x1E
  write (com1Port + 0) 0xAE
  let echoed ← read (com1Port + 0)
  if echoed ≠ 0xAE then pure 1
  else do
    write (com1Port + 4) 0x0F
    pure 0

/-- `kputc`. -/
def kputc (c : BitVec 32) : Program KernelMemory (BitVec 32) := do
  repeatWhile do
    let empty ← serialTransmitEmpty
    pure (empty == 0)
  write com1Port (c.setWidth 8)
  pure c

/-- `kputs`, on the readable characters from the pointer on. -/
def kputs : List Char8 → Program KernelMemory (BitVec 32)
  | [] => .abort
  | c :: s =>
      if c = 0 then pure 0
      else do
        let _ ← kputc (c.signExtend 32)
        kputs s

/-- `serial_received`. -/
def serialReceived : Program KernelMemory (BitVec 8) := do
  let status ← read (com1Port + 5)
  pure (status &&& 1)

/-- `kgetc`. -/
def kgetc : Program KernelMemory (BitVec 32) := do
  repeatWhile do
    let received ← serialReceived
    pure (received == 0)
  let c ← read com1Port
  pure (c.setWidth 32)

/-- The calls of `kputc` that `__proto_print` makes. -/
def kputcAll : List Char8 → Program KernelMemory Unit
  | [] => pure ()
  | c :: text => do
      let _ ← kputc (c.signExtend 32)
      kputcAll text

/-- `__proto_print(kputc, ..)`: `__str_buff` before and after it. -/
def protoPrintKputc (buff : StrBuff) (format : List Char8) (args : List Arg) :
    Program KernelMemory StrBuff :=
  match protoPrint buff format args with
  | .error _ => .abort
  | .ok s => do
      kputcAll s.out
      pure s.buff

/-- The format of the time stamp. -/
def stampFormat : List Char8 :=
  "[%9d.%03d] ".toList.map chr ++ [0]

/-- The arguments of the time stamp, from a read of `ms_count` for the seconds and one for the
milliseconds. -/
def stampArgs (seconds millis : BitVec 64) : List Arg :=
  [⟨seconds / 1000, []⟩, ⟨millis % 1000, []⟩]

/-- The order of the two reads, which C leaves open. -/
inductive ReadOrder where
  | secondsFirst
  | millisFirst
  deriving DecidableEq, Repr

namespace ReadOrder

/-- The read for the seconds. -/
def seconds (order : ReadOrder) (first second : BitVec 64) : BitVec 64 :=
  match order with
  | secondsFirst => first
  | millisFirst => second

/-- The read for the milliseconds. -/
def millis (order : ReadOrder) (first second : BitVec 64) : BitVec 64 :=
  match order with
  | secondsFirst => second
  | millisFirst => first

end ReadOrder

/-- `serial_printf`, with the `__str_buff` that nothing else uses. -/
def serialPrintf (order : ReadOrder) (buff : StrBuff) (format : List Char8) (args : List Arg) :
    Program KernelMemory StrBuff := do
  let first ← fetch
  let second ← fetch
  let buff ← protoPrintKputc buff stampFormat
    (stampArgs (order.seconds first.msCount second.msCount)
      (order.millis first.msCount second.msCount))
  protoPrintKputc buff format args

/-- `init_PIT`. -/
def initPit (frequency : BitVec 32) : Program KernelMemory Unit :=
  if frequency = 0 then .abort
  else do
    let divisor : BitVec 32 := 1193180 / frequency
    modify fun memory => { memory with msCount := 0 }
    write 0x43 0x36
    let lo := (divisor &&& 0xFF).setWidth 8
    let hi := ((divisor >>> 8) &&& 0xFF).setWidth 8
    interruptFlag false
    write 0x40 lo
    write 0x40 hi

/-! ## Rules -/

section

variable {γ : Type} {protocol : Protocol KernelMemory γ} {ghost : γ}

/-- `kputc` waits with an invariant, and writes when the transmitter is empty. -/
theorem meets_kputc {c : BitVec 32} {post : BitVec 32 → γ → Prop} (inv : γ → Prop)
    (hinv : inv ghost)
    (hawaits : ∀ status, protocol.awaited (com1Port + 5) status → status &&& 0x20 ≠ 0)
    (hpoll : ∀ ghost, inv ghost → ∀ status,
      protocol.allowed ghost (.read (com1Port + 5) status) ∧
        inv (protocol.next ghost (.read (com1Port + 5) status)))
    (hwrite : ∀ ghost, inv ghost → ∀ status, status &&& 0x20 ≠ 0 →
      protocol.allowed (protocol.next ghost (.read (com1Port + 5) status))
          (.write com1Port (c.setWidth 8)) ∧
        post c (protocol.next (protocol.next ghost (.read (com1Port + 5) status))
          (.write com1Port (c.setWidth 8)))) :
    Meets protocol (kputc c) post ghost := by
  refine Meets.loop inv hinv (fun ghost hghost status _ => ⟨(hpoll ghost hghost status).1, ?_⟩)
    fun ghost hghost status _ hawaited => beq_eq_false_iff_ne.mpr (hawaits status hawaited)
  by_cases hbusy : status &&& 0x20 = 0
  · have hagain : (status &&& 0x20 == 0) = true := beq_iff_eq.mpr hbusy
    show if (status &&& 0x20 == 0) = true then _ else _
    rw [if_pos hagain]
    exact (hpoll ghost hghost status).2
  · have hend : ¬ (status &&& 0x20 == 0) = true := fun heq => hbusy (beq_iff_eq.mp heq)
    show if (status &&& 0x20 == 0) = true then _ else _
    rw [if_neg hend]
    exact hwrite ghost hghost status hbusy

/-- `kgetc` waits with an invariant, and reads when a byte has been received. -/
theorem meets_kgetc {post : BitVec 32 → γ → Prop} (inv : γ → Prop) (hinv : inv ghost)
    (hawaits : ∀ ghost, inv ghost → ∀ status, protocol.relies ghost (com1Port + 5) status →
      protocol.awaited (com1Port + 5) status → status &&& 1 ≠ 0)
    (hpoll : ∀ ghost, inv ghost → ∀ status, protocol.relies ghost (com1Port + 5) status →
      protocol.allowed ghost (.read (com1Port + 5) status) ∧
        inv (protocol.next ghost (.read (com1Port + 5) status)))
    (hread : ∀ ghost, inv ghost → ∀ status, status &&& 1 ≠ 0 → ∀ c,
      protocol.allowed (protocol.next ghost (.read (com1Port + 5) status)) (.read com1Port c) ∧
        post (c.setWidth 32) (protocol.next (protocol.next ghost (.read (com1Port + 5) status))
          (.read com1Port c))) :
    Meets protocol kgetc post ghost := by
  refine Meets.loop inv hinv
    (fun ghost hghost status hrelies => ⟨(hpoll ghost hghost status hrelies).1, ?_⟩)
    fun ghost hghost status hrelies hawaited =>
      beq_eq_false_iff_ne.mpr (hawaits ghost hghost status hrelies hawaited)
  by_cases hnone : status &&& 1 = 0
  · have hagain : (status &&& 1 == 0) = true := beq_iff_eq.mpr hnone
    show if (status &&& 1 == 0) = true then _ else _
    rw [if_pos hagain]
    exact (hpoll ghost hghost status hrelies).2
  · have hend : ¬ (status &&& 1 == 0) = true := fun heq => hnone (beq_iff_eq.mp heq)
    show if (status &&& 1 == 0) = true then _ else _
    rw [if_neg hend]
    exact fun c _ => hread ghost hghost status hnone c

/-- A protocol that allows a text: `due` says what is still to be written. -/
structure Speaks (protocol : Protocol KernelMemory γ) (due : List Char8 → γ → Prop) : Prop where
  awaits : ∀ status, protocol.awaited (com1Port + 5) status → status &&& 0x20 ≠ 0
  poll : ∀ {c text ghost} status, due (c :: text) ghost →
    protocol.allowed ghost (.read (com1Port + 5) status) ∧
      due (c :: text) (protocol.next ghost (.read (com1Port + 5) status))
  write : ∀ {c text ghost} status, due (c :: text) ghost → status &&& 0x20 ≠ 0 →
    protocol.allowed (protocol.next ghost (.read (com1Port + 5) status)) (.write com1Port c) ∧
      due text (protocol.next (protocol.next ghost (.read (com1Port + 5) status))
        (.write com1Port c))

variable {due : List Char8 → γ → Prop} {rest : List Char8}

/-- A `char` passed as an `int`, one byte of which is written. -/
theorem byte_of_char (c : Char8) : (c.signExtend 32).setWidth 8 = c := by
  apply BitVec.eq_of_getLsbD_eq
  intro i hi
  have hwide : i < 32 := by omega
  rw [BitVec.getLsbD_setWidth, BitVec.getLsbD_signExtend, if_pos hi]
  simp [hi, hwide]

/-- `kputc` writes the byte that is due. -/
theorem Speaks.kputc (h : Speaks protocol due) {c : Char8} (hdue : due (c :: rest) ghost) :
    Meets protocol (kputc (c.signExtend 32)) (fun _ after => due rest after) ghost := by
  refine meets_kputc (due (c :: rest)) hdue h.awaits
    (fun ghost hghost status => h.poll status hghost) ?_
  intro ghost hghost status hempty
  rw [byte_of_char]
  exact h.write status hghost hempty

/-- `kputc` for each character of a text that is due. -/
theorem Speaks.kputc_all (h : Speaks protocol due) {text : List Char8}
    (hdue : due (text ++ rest) ghost) :
    Meets protocol (kputcAll text) (fun _ after => due rest after) ghost := by
  induction text generalizing ghost with
  | nil => exact hdue
  | cons c text ih => exact Meets.bind ((h.kputc hdue).mono fun _ after hafter => ih hafter)

/-- `kputs` writes a string that is due. -/
theorem Speaks.kputs (h : Speaks protocol due) {text : List Char8} (htext : 0 ∉ text)
    (hdue : due (text ++ rest) ghost) :
    Meets protocol (kputs (text ++ [0])) (fun _ after => due rest after) ghost := by
  induction text generalizing ghost with
  | nil => exact hdue
  | cons c text ih =>
      rw [List.mem_cons, not_or] at htext
      rw [List.cons_append, SiStultum.kputs, if_neg (Ne.symm htext.1)]
      exact Meets.bind ((h.kputc hdue).mono fun _ after hafter => ih htext.2 hafter)

/-- `__proto_print(kputc, ..)` writes what `__proto_print` prints. -/
theorem Speaks.proto_print (h : Speaks protocol due) {buff : StrBuff} {format : List Char8}
    {args : List Arg} {s : PrintState} (hprint : protoPrint buff format args = .ok s)
    (hdue : due (s.out ++ rest) ghost) :
    Meets protocol (protoPrintKputc buff format args) (fun _ after => due rest after) ghost := by
  rw [protoPrintKputc, hprint]
  exact Meets.bind ((h.kputc_all hdue).mono fun _ after hafter => hafter)

end

/-! ## The registers of the port -/

/-- The world with another state of the port. -/
def withUart (world : KernelWorld) (uart : Uart.Port) : KernelWorld :=
  { world with devices := { world.devices with uart := uart } }

/-- The port that has been put in. -/
@[simp] theorem with_uart_uart (world : KernelWorld) (uart : Uart.Port) :
    (withUart world uart).devices.uart = uart :=
  rfl

/-- The last port that has been put in stays. -/
@[simp] theorem with_uart_with_uart (world : KernelWorld) (uart other : Uart.Port) :
    withUart (withUart world uart) other = withUart world other :=
  rfl

/-- The eight ports of the serial port. -/
theorem com1_cases {register : BitVec 16} (h : register < 8) :
    register ∈ [0#16, 1#16, 2#16, 3#16, 4#16, 5#16, 6#16, 7#16] := by
  have hlt : register.toNat < 8 := h
  have hof : register = BitVec.ofNat 16 register.toNat := by simp
  rw [hof]
  generalize register.toNat = n at hlt
  revert n
  decide

/-- A write to a register of the port. -/
theorem outb_com1 {register : BitVec 16} (h : register < 8) (value : BitVec 8)
    (devices : Devices) :
    deviceBus.outb (com1Port + register) value devices =
      { devices with uart := devices.uart.write register.toNat value } := by
  have hcases := com1_cases h
  simp only [List.mem_cons, List.not_mem_nil, or_false] at hcases
  rcases hcases with rfl | rfl | rfl | rfl | rfl | rfl | rfl | rfl <;> rfl

/-- A read of a register of the port. -/
theorem inb_com1 {register : BitVec 16} (h : register < 8) (devices : Devices) :
    deviceBus.inb (com1Port + register) devices =
      ((devices.uart.read register.toNat).1,
        { devices with uart := (devices.uart.read register.toNat).2 }) := by
  have hcases := com1_cases h
  simp only [List.mem_cons, List.not_mem_nil, or_false] at hcases
  rcases hcases with rfl | rfl | rfl | rfl | rfl | rfl | rfl | rfl <;> rfl

variable {α : Type}

/-- A write to a register, and the rest. -/
theorem exec_write_com1 {register : BitVec 16} (h : register < 8) (value : BitVec 8)
    (rest : Unit → Program KernelMemory α) (world : KernelWorld) :
    exec deviceBus (write (com1Port + register) value >>= rest) world =
      exec deviceBus (rest ())
        (withUart world (world.devices.uart.write register.toNat value)) := by
  show exec deviceBus (rest ())
    { world with devices := deviceBus.outb (com1Port + register) value world.devices } = _
  rw [outb_com1 h]
  rfl

/-- A program that begins with such a read. -/
theorem exec_read_com1 {register : BitVec 16} (h : register < 8)
    (rest : BitVec 8 → Program KernelMemory α) (world : KernelWorld) :
    exec deviceBus (read (com1Port + register) >>= rest) world =
      exec deviceBus (rest (world.devices.uart.read register.toNat).1)
        (withUart world (world.devices.uart.read register.toNat).2) := by
  show exec deviceBus (rest (deviceBus.inb (com1Port + register) world.devices).1)
    { world with devices := (deviceBus.inb (com1Port + register) world.devices).2 } = _
  rw [inb_com1 h]
  rfl

/-! ## The self-test -/

/-- A port that sends what is written to it, through a queue. -/
structure Connected (uart : Uart.Port) : Prop where
  dlab : uart.dlab = false
  loopback : uart.loopback = false
  queued : uart.queued = true

/-- The port after `init_serial`. -/
def testedUart (uart : Uart.Port) : Uart.Port :=
  { uart with
    ier := if uart.dlab then uart.ier else 0
    lcr := 0x03
    mcr := if uart.echo 0xAE = 0xAE then 0x0F else 0x1E
    divisor := 3
    queued := true
    tx := []
    rx := [] }

/-- After the test the divisor is no longer accessed. -/
theorem tested_dlab (uart : Uart.Port) : (testedUart uart).dlab = false :=
  Uart.dlab_of rfl (show (0x03 : BitVec 8).getLsbD 7 = false from rfl)

/-- The port stays in loopback mode when the test byte does not come back. -/
theorem tested_loopback (uart : Uart.Port) :
    (testedUart uart).loopback = decide (uart.echo 0xAE ≠ 0xAE) := by
  refine Uart.loopback_of rfl ?_
  show (if uart.echo 0xAE = 0xAE then (0x0F : BitVec 8) else 0x1E).getLsbD 4 = _
  by_cases hecho : uart.echo 0xAE = 0xAE
  · rw [if_pos hecho, decide_eq_false (not_not.mpr hecho)]
    rfl
  · rw [if_neg hecho, decide_eq_true hecho]
    rfl

/-- The first write disables the interrupts of the port, unless it goes to the divisor. -/
theorem write_interrupts (uart : Uart.Port) : ∃ divisor, uart.write 1 0 =
    { uart with ier := if uart.dlab then uart.ier else 0, divisor := divisor } := by
  rw [Uart.Port.write]
  split
  · exact ⟨_, rfl⟩
  · exact ⟨uart.divisor, rfl⟩

/-- The test byte. -/
theorem write_test {uart : Uart.Port} (hline : uart.lcr = 0x03) (hmodem : uart.mcr = 0x1E)
    (hqueued : uart.queued = true) (hrx : uart.rx = []) (value : BitVec 8) :
    uart.write 0 value = { uart with rx := [uart.echo value] } := by
  have hdlab : uart.dlab = false := Uart.dlab_of hline rfl
  have hloop : uart.loopback = true := Uart.loopback_of hmodem rfl
  have hplace : uart.rx.length < uart.depth := by
    rw [Uart.Port.depth, hqueued, hrx]
    decide
  rw [Uart.write_data hdlab, Uart.send_loopback hloop hplace, hrx]
  rfl

/-- The port after the nine writes before the test byte is read. -/
def configuredUart (uart : Uart.Port) : Uart.Port :=
  ((((((((uart.write 1 0x00).write 3 0x80).write 0 0x03).write 1 0x00).write 3 0x03).write 2
    0xC7).write 4 0x0B).write 4 0x1E).write 0 0xAE

/-- The port in loopback mode, after the test byte has been sent. -/
theorem configured_uart_eq (uart : Uart.Port) :
    configuredUart uart = { testedUart uart with mcr := 0x1E, rx := [uart.echo 0xAE] } := by
  obtain ⟨divisor, hfirst⟩ := write_interrupts uart
  have hqueues : ∀ port : Uart.Port, ((port.write 2 0xC7).write 4 0x0B).write 4 0x1E =
      { port with queued := true, rx := [], tx := [], mcr := 0x1E } := fun _ => rfl
  rw [configuredUart, hfirst, Uart.set_divisor, hqueues, write_test rfl rfl rfl rfl]
  rfl

/-- The byte that comes back. -/
theorem read_test (uart : Uart.Port) :
    (configuredUart uart).read 0 = (uart.echo 0xAE, { testedUart uart with mcr := 0x1E }) := by
  have hdlab : (configuredUart uart).dlab = false := by
    rw [configured_uart_eq]
    exact Uart.dlab_of rfl (show (0x03 : BitVec 8).getLsbD 7 = false from rfl)
  rw [Uart.read_data hdlab, configured_uart_eq]
  rfl

/-- `init_serial` returns what the test says. -/
theorem exec_init_serial (world : KernelWorld) :
    exec deviceBus initSerial world =
      some (if world.devices.uart.echo 0xAE = 0xAE then 0 else 1,
        withUart world (testedUart world.devices.uart)) := by
  have hnine : exec deviceBus initSerial world =
      exec deviceBus (do
          let echoed ← read (com1Port + 0)
          if echoed ≠ 0xAE then pure 1
          else do
            write (com1Port + 4) 0x0F
            pure 0)
        (withUart world (configuredUart world.devices.uart)) := by
    rw [initSerial]
    simp only [exec_write_com1 (show (0 : BitVec 16) < 8 by decide),
      exec_write_com1 (show (1 : BitVec 16) < 8 by decide),
      exec_write_com1 (show (2 : BitVec 16) < 8 by decide),
      exec_write_com1 (show (3 : BitVec 16) < 8 by decide),
      exec_write_com1 (show (4 : BitVec 16) < 8 by decide), with_uart_uart, with_uart_with_uart]
    rfl
  rw [hnine, exec_read_com1 (by decide), with_uart_uart]
  show exec deviceBus (if ((configuredUart world.devices.uart).read 0).1 ≠ 0xAE then pure 1 else _)
    (withUart world ((configuredUart world.devices.uart).read 0).2) = _
  rw [read_test]
  by_cases hecho : world.devices.uart.echo 0xAE = 0xAE
  · rw [if_pos hecho, if_neg (not_not.mpr hecho), exec_write_com1 (by decide), testedUart,
      if_pos hecho]
    rfl
  · rw [if_neg hecho, if_pos hecho, testedUart, if_neg hecho]
    rfl

/-- One turn of the loop of `kputc`. -/
theorem exec_poll (world : KernelWorld) :
    exec deviceBus (do
        let empty ← serialTransmitEmpty
        pure (empty == 0)) world =
      some (world.devices.uart.status &&& 0x20 == 0, world) :=
  rfl

/-- A port in loopback mode, with nothing to send. -/
structure Muted (uart : Uart.Port) : Prop where
  dlab : uart.dlab = false
  loopback : uart.loopback = true
  tx : uart.tx = []

/-- A muted port has no more to send than it has sent. -/
theorem Muted.output {uart : Uart.Port} (h : Muted uart) : uart.output = uart.wire := by
  rw [Uart.Port.output, h.tx, List.append_nil]

/-- A muted port takes a byte at once and sends nothing. -/
theorem kputc_muted (c : BitVec 32) {world : KernelWorld} (h : Muted world.devices.uart) :
    ∃ after, Completes deviceBus (kputc c) world c after ∧ Muted after.devices.uart ∧
      after.devices.uart.wire = world.devices.uart.wire := by
  have hempty : (world.devices.uart.status &&& 0x20 == 0) = false := by
    rw [beq_eq_false_iff_ne]
    exact fun hbusy => Uart.status_empty.mp hbusy h.tx
  have hpoll := exec_poll world
  rw [hempty] at hpoll
  have hwrite : Completes deviceBus (do
      write com1Port (c.setWidth 8)
      pure c) world c (withUart world (world.devices.uart.write 0 (c.setWidth 8))) :=
    .of_exec rfl
  refine ⟨_, .loop_end (.of_exec hpoll) hwrite, ?_⟩
  rw [with_uart_uart, Uart.write_data h.dlab, Uart.Port.send, if_pos h.loopback, Uart.Port.accept]
  split
  · exact ⟨⟨h.dlab, h.loopback, h.tx⟩, rfl⟩
  · exact ⟨⟨h.dlab, h.loopback, h.tx⟩, rfl⟩

/-- It stays muted over a text. -/
theorem kputs_muted {text : List Char8} (htext : 0 ∉ text) {world : KernelWorld}
    (h : Muted world.devices.uart) :
    ∃ after, Completes deviceBus (kputs (text ++ [0])) world 0 after ∧ Muted after.devices.uart ∧
      after.devices.uart.wire = world.devices.uart.wire := by
  induction text generalizing world with
  | nil => exact ⟨world, .done 0 world, h, rfl⟩
  | cons c text ih =>
      rw [List.mem_cons, not_or] at htext
      obtain ⟨middle, hfirst, hmuted, hwire⟩ := kputc_muted (c.signExtend 32) h
      obtain ⟨after, hrest, hstill, hkept⟩ := ih htext.2 hmuted
      refine ⟨after, ?_, hstill, hkept.trans hwire⟩
      rw [List.cons_append, kputs, if_neg (Ne.symm htext.1)]
      exact hfirst.bind hrest

/-- `init_serial`, from any state of the port, returns 0 exactly when the test byte comes back, and
the port is then connected. Otherwise it stays in loopback mode: nothing that `kputs` prints later
goes to the line, or is queued for it. -/
theorem init_serial_connects_iff (world : KernelWorld) :
    ∃ result after, Completes deviceBus initSerial world result after ∧
      after.devices.uart.wire = world.devices.uart.wire ∧
      (result = 0 ↔ world.devices.uart.echo 0xAE = 0xAE) ∧
      (result = 0 → Connected after.devices.uart ∧ after.devices.uart.output =
        world.devices.uart.wire ∧ after.devices.uart.rx = []) ∧
      (result ≠ 0 → after.devices.uart.loopback = true ∧
        ∀ text : List Char8, 0 ∉ text → ∃ final,
          Completes deviceBus (kputs (text ++ [0])) after 0 final ∧
            final.devices.uart.loopback = true ∧
            final.devices.uart.output = world.devices.uart.wire) := by
  refine ⟨_, _, .of_exec (exec_init_serial world), rfl, ?_, ?_, ?_⟩
  · split
    · next hecho => exact ⟨fun _ => hecho, fun _ => rfl⟩
    · next hecho => exact ⟨fun hone => absurd hone (by decide), fun h => absurd h hecho⟩
  · intro hzero
    have hecho : world.devices.uart.echo 0xAE = 0xAE := by
      by_contra hecho
      rw [if_neg hecho] at hzero
      exact absurd hzero (by decide)
    have hloop : (testedUart world.devices.uart).loopback = false := by
      rw [tested_loopback, decide_eq_false (not_not.mpr hecho)]
    exact ⟨⟨tested_dlab _, hloop, rfl⟩, List.append_nil _, rfl⟩
  · intro hone
    have hecho : world.devices.uart.echo 0xAE ≠ 0xAE := by
      intro hecho
      rw [if_pos hecho] at hone
      exact hone rfl
    have hloop : (testedUart world.devices.uart).loopback = true := by
      rw [tested_loopback, decide_eq_true hecho]
    have hmuted : Muted (testedUart world.devices.uart) := ⟨tested_dlab _, hloop, rfl⟩
    refine ⟨hloop, fun text htext => ?_⟩
    obtain ⟨final, hcompletes, hstill, hwire⟩ :=
      @kputs_muted text htext (withUart world (testedUart world.devices.uart)) hmuted
    exact ⟨final, hcompletes, hstill.loopback, hstill.output.trans hwire⟩

/-! ## The timer -/

/-- The two bytes of the divisor. -/
theorem divisor_bytes (divisor : BitVec 32) :
    (((divisor >>> 8) &&& 0xFF).setWidth 8 : BitVec 8) ++
        ((divisor &&& 0xFF).setWidth 8 : BitVec 8) =
      divisor.setWidth 16 := by
  have hbyte : ∀ value : BitVec 32, (value &&& 0xFF).setWidth 8 = value.setWidth 8 := by
    intro value
    apply BitVec.eq_of_toNat_eq
    have hmask : value.toNat &&& (0xFF : BitVec 32).toNat = value.toNat % 2 ^ 8 :=
      Nat.and_two_pow_sub_one_eq_mod _ 8
    rw [BitVec.toNat_setWidth, BitVec.toNat_and, hmask, BitVec.toNat_setWidth]
    omega
  rw [hbyte, hbyte]
  apply BitVec.eq_of_toNat_eq
  rw [BitVec.toNat_append, ← Nat.shiftLeft_add_eq_or_of_lt (BitVec.isLt _), Nat.shiftLeft_eq,
    BitVec.toNat_setWidth, BitVec.toNat_setWidth, BitVec.toNat_setWidth, BitVec.toNat_ushiftRight,
    Nat.shiftRight_eq_div_pow]
  omega

/-- The channel after `init_PIT`. -/
theorem exec_init_pit {frequency : BitVec 32} (hfrequency : frequency ≠ 0) (world : KernelWorld) :
    exec deviceBus (initPit frequency) world =
      some ((), ⟨{ world.devices with
        pit := ⟨0x36, (1193180 / frequency).setWidth 16, none, true⟩ }, ⟨0⟩, false⟩) := by
  rw [initPit, if_neg hfrequency, ← divisor_bytes, ← Timer.set_divisor world.devices.pit]
  rfl

/-- `init_PIT`, from any state of the channel, restarts the count of milliseconds, disables the
interrupts, and starts the channel. The period is the one that was asked for exactly when it is from
2 to 65535 clock cycles. -/
theorem init_pit_period_iff {frequency : BitVec 32} (hfrequency : frequency ≠ 0)
    (world : KernelWorld) :
    ∃ after, Completes deviceBus (initPit frequency) world () after ∧
      after.memory.msCount = 0 ∧ after.interrupts = false ∧
      after.devices.pit.counting = true ∧
      (after.devices.pit.period = some (1193180 / frequency.toNat) ↔
        19 ≤ frequency.toNat ∧ frequency.toNat ≤ 596590) := by
  refine ⟨_, .of_exec (exec_init_pit hfrequency world), rfl, rfl, rfl, ?_⟩
  have hpos : 0 < frequency.toNat :=
    Nat.pos_of_ne_zero fun h => hfrequency (BitVec.eq_of_toNat_eq h)
  have hdivisor : ((1193180 / frequency).setWidth 16).toNat =
      1193180 / frequency.toNat % 2 ^ 16 := by
    rw [BitVec.toNat_setWidth, BitVec.toNat_udiv]
    rfl
  have hzero : (1193180 / frequency).setWidth 16 = (0 : BitVec 16) ↔
      1193180 / frequency.toNat % 2 ^ 16 = 0 := by
    rw [← hdivisor]
    exact ⟨fun h => congrArg BitVec.toNat h, fun h => BitVec.eq_of_toNat_eq h⟩
  -- the quotient is a divisor of the channel exactly for these frequencies
  have hlow : 1193180 / frequency.toNat < 2 ^ 16 ↔ 19 ≤ frequency.toNat := by
    rw [Nat.div_lt_iff_lt_mul hpos]
    omega
  have hhigh : 2 ≤ 1193180 / frequency.toNat ↔ frequency.toNat ≤ 596590 := by
    rw [Nat.le_div_iff_mul_le hpos]
    omega
  have hnever : 1193180 / frequency.toNat ≠ 2 ^ 16 := by
    intro hexact
    rw [Nat.div_eq_iff hpos] at hexact
    omega
  rw [Timer.period_eq_some_iff rfl, Timer.Channel.count, ← hlow, ← hhigh]
  split
  · next h =>
      rw [hzero] at h
      omega
  · next h =>
      rw [hzero] at h
      rw [hdivisor]
      omega

/-- The frequency of `init_idt`: 1193 cycles are a millisecond. -/
theorem millisecond_period :
    ∃ after, Completes deviceBus (initPit 1000) ⟨coldDevices, ⟨7⟩, true⟩ () after ∧
      after.memory.msCount = 0 ∧ after.interrupts = false ∧
      after.devices.pit.counting = true ∧
      (after.devices.pit.period = some (1193180 / (1000 : BitVec 32).toNat) ↔
        19 ≤ (1000 : BitVec 32).toNat ∧ (1000 : BitVec 32).toNat ≤ 596590) :=
  init_pit_period_iff (by decide) ⟨coldDevices, ⟨7⟩, true⟩

end SiStultum
