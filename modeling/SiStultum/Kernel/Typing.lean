import SiStultum.Kernel.Interleavings

/-!
# A run with a typist

One run of the end of `_start` in which the events come in an order of their own: the line takes
each byte as soon as it is written, the timer interrupts only while the processor sleeps, and a byte
arrives right before an interrupt. `serial_printf_run` is one message, `wait_run` the wait, and
`typed_echoed` the whole run, for any text that is typed.
-/

namespace SiStultum

open PortPrograms PortPrograms.Program
open Interrupts (Event State)

variable {handlers : Handlers} {s : IdtState} {world : KernelWorld}
variable {main : Program KernelMemory Unit} {asleep : Bool} {taken : List (BitVec 8)}

/-! ## Bytes to the line -/

/-- The events with which a byte is sent: a poll, the write, and the line takes it. -/
def sayByte : List (Event Outside) :=
  [.run, .run, .run, .outside .transmit]

/-- The events with which a text is sent. -/
def sayText (text : List Char8) : List (Event Outside) :=
  (List.replicate text.length sayByte).flatten

/-- The world after a text has been sent. -/
def afterText (world : KernelWorld) (text : List Char8) : KernelWorld :=
  withUart world { world.devices.uart with wire := world.devices.uart.wire ++ text }

/-- A connected port with nothing to send. -/
structure Idle (uart : Uart.Port) : Prop where
  connected : Connected uart
  tx : uart.tx = []

/-- What has come and gone makes no difference. -/
theorem Idle.with_lists {uart : Uart.Port} (h : Idle uart) (rx arrived wire : List Char8) :
    Idle { uart with rx := rx, arrived := arrived, wire := wire } :=
  ⟨⟨h.connected.dlab, h.connected.loopback, h.connected.queued⟩, h.tx⟩

/-- The port is idle again after a text. -/
theorem Idle.after_text (h : Idle world.devices.uart) (text : List Char8) :
    Idle (afterText world text).devices.uart :=
  h.with_lists _ _ _

/-- Two texts one after the other are one text. -/
theorem after_text_append (world : KernelWorld) (first second : List Char8) :
    afterText (afterText world first) second = afterText world (first ++ second) := by
  rw [afterText, afterText, afterText, with_uart_with_uart, with_uart_uart, List.append_assoc]

/-- The poll of an idle port. -/
theorem poll_idle (h : Idle world.devices.uart) :
    (world.devices.uart.status &&& 0x20 == 0) = false := by
  rw [beq_eq_false_iff_ne]
  exact fun hbusy => Uart.status_empty.mp hbusy h.tx

/-- `kputc` sends one byte. -/
theorem kputc_run (h : Idle world.devices.uart) (c : BitVec 32)
    (rest : BitVec 32 → Program KernelMemory Unit) :
    Runs.run (State.next (kernelMachine handlers s))
        ⟨world, (kputc c).bind rest, asleep, none, taken⟩ sayByte =
      ⟨afterText world [c.setWidth 8], rest c, false, none, taken⟩ := by
  have hpoll : State.next (kernelMachine handlers s) (State.next (kernelMachine handlers s)
      ⟨world, (kputc c).bind rest, asleep, none, taken⟩ .run) .run =
      ⟨world, (write com1Port (c.setWidth 8)).bind fun _ => rest c, false, none, taken⟩ := by
    show (⟨world, if (world.devices.uart.status &&& 0x20 == 0) = true then _ else _, false, none,
      taken⟩ : State Devices KernelMemory) = _
    rw [poll_idle h, if_neg Bool.false_ne_true]
    rfl
  have hsent : { deviceBus.outb com1Port (c.setWidth 8) world.devices with
      uart := (deviceBus.outb com1Port (c.setWidth 8) world.devices).uart.transmit } =
      (afterText world [c.setWidth 8]).devices := by
    rw [outb_data h.connected.dlab, Uart.transmit_send h.connected.loopback h.tx]
    rfl
  rw [sayByte, Runs.run_cons, Runs.run_cons, hpoll]
  show (⟨⟨{ deviceBus.outb com1Port (c.setWidth 8) world.devices with
      uart := (deviceBus.outb com1Port (c.setWidth 8) world.devices).uart.transmit }, _, _⟩, rest c,
    false, none, taken⟩ : State Devices KernelMemory) = _
  rw [hsent]
  rfl

/-- The characters that `__proto_print` prints. -/
theorem say_run (h : Idle world.devices.uart) (text : List Char8)
    (rest : Unit → Program KernelMemory Unit) :
    Runs.run (State.next (kernelMachine handlers s))
        ⟨world, (kputcAll text).bind rest, false, none, taken⟩ (sayText text) =
      ⟨afterText world text, rest (), false, none, taken⟩ := by
  induction text generalizing world with
  | nil =>
      show (⟨world, rest (), false, none, taken⟩ : State Devices KernelMemory) = _
      rw [afterText, List.append_nil]
      rfl
  | cons c text ih =>
      have hfirst := @kputc_run handlers s world false taken h (c.signExtend 32)
        fun _ => (kputcAll text).bind rest
      rw [byte_of_char] at hfirst
      rw [sayText, List.length_cons, List.replicate_succ, List.flatten_cons, Runs.run_append]
      refine (congrArg (fun state => Runs.run (State.next (kernelMachine handlers s)) state _)
        hfirst).trans ?_
      have hrest := ih (h.after_text [c])
      rw [after_text_append] at hrest
      exact hrest

/-- A call of `__proto_print(kputc, ..)` sends what it prints. -/
theorem proto_print_kputc_eq {buff : StrBuff} {format : List Char8} {args : List Arg}
    {printed : PrintState} (h : protoPrint buff format args = .ok printed) :
    protoPrintKputc buff format args = (kputcAll printed.out).bind fun _ => .done printed.buff := by
  rw [protoPrintKputc, h]
  rfl

/-- `serial_printf` first reads the time twice. -/
theorem serial_printf_reads (order : ReadOrder) (buff : StrBuff) (format : List Char8)
    (args : List Arg) (rest : StrBuff → Program KernelMemory Unit) :
    Runs.run (State.next (kernelMachine handlers s))
        ⟨world, (serialPrintf order buff format args).bind rest, false, none, taken⟩ [.run, .run] =
      ⟨world, (protoPrintKputc buff stampFormat
        (stampArgs (order.seconds world.memory.msCount world.memory.msCount)
          (order.millis world.memory.msCount world.memory.msCount))).bind
            fun buff => (protoPrintKputc buff format args).bind rest, false, none, taken⟩ := by
  rw [← Program.bind_assoc]
  rfl

/-- The events of a call of `serial_printf` at one time. -/
def sayLine (report : Report) (time : BitVec 64) : List (Event Outside) :=
  [.run, .run] ++ (sayText (report.order.stamp time time) ++ sayText report.text)

/-- `serial_printf` sends its line. -/
theorem serial_printf_run (h : Idle world.devices.uart) (report : Report) (buff : StrBuff)
    (rest : StrBuff → Program KernelMemory Unit) :
    ∃ after, Runs.run (State.next (kernelMachine handlers s))
        ⟨world, (serialPrintf report.order buff report.format report.args).bind rest, false, none,
          taken⟩ (sayLine report world.memory.msCount) =
      ⟨afterText world (report.line world.memory.msCount world.memory.msCount), rest after, false,
        none, taken⟩ := by
  obtain ⟨stamp, hstamp, hout⟩ := proto_print_stamp buff
    (report.order.seconds world.memory.msCount world.memory.msCount)
    (report.order.millis world.memory.msCount world.memory.msCount)
  obtain ⟨printed, hprinted, htext⟩ := report.proto_print stamp.buff
  have hfirst := proto_print_kputc_eq hstamp
  have hsecond := proto_print_kputc_eq hprinted
  rw [hout, ← ReadOrder.stamp] at hfirst
  rw [htext] at hsecond
  refine ⟨printed.buff, ?_⟩
  rw [sayLine, Runs.run_append, serial_printf_reads, hfirst, Program.bind_assoc, Runs.run_append,
    say_run h]
  have hrest := @say_run handlers s _ taken (h.after_text
    (report.order.stamp world.memory.msCount world.memory.msCount)) report.text
    fun _ => rest printed.buff
  rw [after_text_append] at hrest
  show Runs.run _ (⟨_, (protoPrintKputc stamp.buff report.format report.args).bind rest, _, _, _⟩ :
    State Devices KernelMemory) _ = _
  rw [hsecond, Program.bind_assoc]
  exact hrest

/-- The text of messages that are all sent at one time. -/
def linesAt (time : BitVec 64) (reports : List Report) : List Char8 :=
  reports.flatMap fun report => report.line time time

/-- The messages before the wait. -/
theorem report_all_run (h : Idle world.devices.uart) (reports : List Report) (buff : StrBuff)
    (rest : StrBuff → Program KernelMemory Unit) :
    ∃ after, Runs.run (State.next (kernelMachine handlers s))
        ⟨world, (reportAll buff reports).bind rest, false, none, taken⟩
        (reports.flatMap fun report => sayLine report world.memory.msCount) =
      ⟨afterText world (linesAt world.memory.msCount reports), rest after, false, none, taken⟩ := by
  induction reports generalizing world buff with
  | nil =>
      refine ⟨buff, ?_⟩
      show (⟨world, rest buff, false, none, taken⟩ : State Devices KernelMemory) = _
      rw [afterText, linesAt, List.flatMap_nil, List.append_nil]
      rfl
  | cons report reports ih =>
      obtain ⟨middle, hfirst⟩ := @serial_printf_run handlers s world taken h report buff
        fun buff => (reportAll buff reports).bind rest
      obtain ⟨after, hrest⟩ := ih (h.after_text _) middle
      have hprogram : (reportAll buff (report :: reports)).bind rest =
          (serialPrintf report.order buff report.format report.args).bind
            fun buff => (reportAll buff reports).bind rest :=
        Program.bind_assoc _ _ _
      rw [after_text_append] at hrest
      refine ⟨after, ?_⟩
      rw [hprogram, List.flatMap_cons, Runs.run_append, hfirst]
      exact hrest

/-! ## The timer -/

/-- The timer's line. -/
def timerLine : Fin 16 :=
  ⟨0, Nat.zero_lt_succ 15⟩

/-- The controllers after `init_idt`. -/
def bootedPics : Pic.Pair :=
  (bootedWorld ⟨coldDevices, ⟨0⟩, false⟩).devices.pics

/-- They are the same whatever they were before. -/
theorem booted_pics (world : KernelWorld) : (bootedWorld world).devices.pics = bootedPics :=
  rfl

/-- The controllers while the timer's handler runs. -/
def timerPics : Pic.Pair :=
  ⟨{ bootedPics.master with isr := 1 }, bootedPics.slave⟩

/-- The first controller delivers the timer's interrupt. -/
theorem accept_timer : (bootedPics.raise timerLine).accept = some (0x20, timerPics) := by
  decide +kernel

/-- The end of the interrupt takes it out of service. -/
theorem end_timer : timerPics.master.endOfInterrupt = bootedPics.master := by
  decide +kernel

/-- The events of one interrupt of the timer. -/
def timerEvents : List (Event Outside) :=
  [.outside (.raise timerLine), .interrupt, .run, .run, .run]

/-- A millisecond later. -/
def afterTick (world : KernelWorld) : KernelWorld :=
  { world with memory := ⟨world.memory.msCount + 1⟩ }

/-- The world between two interrupts. -/
structure Between (world : KernelWorld) : Prop where
  pics : world.devices.pics = bootedPics
  interrupts : world.interrupts = true

/-- A tick keeps the controllers. -/
theorem Between.after_tick (h : Between world) : Between (afterTick world) :=
  ⟨h.pics, h.interrupts⟩

/-- So does whatever happens to the serial port. -/
theorem Between.with_uart (h : Between world) (uart : Uart.Port) :
    Between (withUart world uart) :=
  ⟨h.pics, h.interrupts⟩

/-- The timer's handler. -/
theorem timer_service (devices : Devices) (memory : KernelMemory) :
    Runs.run (State.next (kernelMachine handlers s))
        ⟨⟨devices, memory, false⟩, main, asleep, some timerHandler, taken⟩ [.run, .run, .run] =
      ⟨⟨{ devices with pics.master := devices.pics.master.endOfInterrupt },
        ⟨memory.msCount + 1⟩, true⟩, main, asleep, none, taken⟩ :=
  rfl

/-- An interrupt of the timer wakes the main program. -/
theorem timer_run (hne : handlers.timer ≠ handlers.keyboard) (h : Between world) :
    Runs.run (State.next (kernelMachine handlers (initIdt handlers s)))
        ⟨world, main, asleep, none, taken⟩ timerEvents =
      ⟨afterTick world, if asleep then main.wake else main, false, none, taken ++ [0x20]⟩ := by
  obtain ⟨⟨pics, uart, pit, scancode⟩, memory, interrupts⟩ := world
  obtain rfl : pics = bootedPics := h.pics
  obtain rfl : interrupts = true := h.interrupts
  have haccept : (kernelMachine handlers (initIdt handlers s)).accept
      ⟨bootedPics.raise timerLine, uart, pit, scancode⟩ =
        some (0x20, ⟨timerPics, uart, pit, scancode⟩) :=
    Option.map_eq_some_iff.mpr ⟨_, accept_timer, rfl⟩
  have hservice : (kernelMachine handlers (initIdt handlers s)).service 0x20 = timerHandler :=
    (enter_init handlers hne s).1
  have htake := @State.take_of_accept _ _ _ (kernelMachine handlers (initIdt handlers s))
    ⟨⟨⟨bootedPics.raise timerLine, uart, pit, scancode⟩, memory, true⟩, main, asleep, none, taken⟩
    _ _ rfl rfl haccept
  rw [hservice] at htake
  refine (congrArg (fun state => Runs.run (State.next (kernelMachine handlers (initIdt handlers s)))
    state [.run, .run, .run]) htake).trans ?_
  refine (timer_service ⟨timerPics, uart, pit, scancode⟩ memory).trans ?_
  rw [end_timer]
  rfl

/-! ## The wait -/

/-- A turn of the wait puts the processor to sleep. -/
theorem wait_turn (rest : Unit → Program KernelMemory Unit) (hless : world.memory.msCount < 3000) :
    Runs.run (State.next (kernelMachine handlers s))
        ⟨world, (waitUntil 3000).bind rest, asleep, none, taken⟩ [.run, .run, .run] =
      ⟨world, .halt ((waitUntil 3000).bind rest), true, none, taken⟩ := by
  show State.next _ (⟨world, (if world.memory.msCount < 3000 then _ else _ :
    Program KernelMemory Bool).bind _, false, none, taken⟩ : State Devices KernelMemory) .run = _
  rw [if_pos hless]
  rfl

/-- The end of the wait. -/
theorem wait_end (rest : Unit → Program KernelMemory Unit) (hless : ¬ world.memory.msCount < 3000) :
    Runs.run (State.next (kernelMachine handlers s))
        ⟨world, (waitUntil 3000).bind rest, asleep, none, taken⟩ [.run, .run] =
      ⟨world, rest (), false, none, taken⟩ := by
  show (⟨world, (if world.memory.msCount < 3000 then _ else _ :
    Program KernelMemory Bool).bind _, false, none, taken⟩ : State Devices KernelMemory) = _
  rw [if_neg hless]
  rfl

/-- The events of the wait, with `n` interrupts of the timer. -/
def waitEvents (n : Nat) : List (Event Outside) :=
  (List.replicate n ([.run, .run, .run] ++ timerEvents)).flatten ++ [.run, .run]

/-- Three seconds later. -/
def afterWait (world : KernelWorld) : KernelWorld :=
  { world with memory := ⟨3000⟩ }

/-- The wait ends with the interrupt that makes `ms_count` 3000. -/
theorem wait_run (hne : handlers.timer ≠ handlers.keyboard)
    (rest : Unit → Program KernelMemory Unit) {n : Nat} (h : Between world)
    (hcount : world.memory.msCount.toNat + n = 3000) :
    Runs.run (State.next (kernelMachine handlers (initIdt handlers s)))
        ⟨world, (waitUntil 3000).bind rest, asleep, none, taken⟩ (waitEvents n) =
      ⟨afterWait world, rest (), false, none, taken ++ List.replicate n 0x20⟩ := by
  induction n generalizing world asleep taken with
  | zero =>
      have hend : world.memory.msCount = 3000 := BitVec.eq_of_toNat_eq hcount
      have hless : ¬ world.memory.msCount < 3000 := by
        rw [hend]
        decide
      have hkept : afterWait world = world := by
        rw [afterWait, ← hend]
      rw [hkept, List.replicate_zero, List.append_nil]
      exact wait_end rest hless
  | succ n ih =>
      have hless : world.memory.msCount < 3000 := by
        show world.memory.msCount.toNat < 3000
        omega
      have hnext : (afterTick world).memory.msCount.toNat + n = 3000 := by
        show (world.memory.msCount + 1).toNat + n = 3000
        bv_omega
      rw [waitEvents, List.replicate_succ, List.flatten_cons, List.append_assoc, List.append_assoc,
        Runs.run_append, wait_turn rest hless, Runs.run_append, timer_run hne h]
      refine (ih h.after_tick hnext).trans ?_
      rw [List.append_assoc, List.replicate_succ]
      rfl

/-! ## The echo -/

/-- What follows an interrupt in the loop that echoes. -/
def echoTurn : Program KernelMemory Unit :=
  echoReceived.bind fun again => if again then echoLoop else .done ()

/-- The loop begins with a wait. -/
theorem echo_sleeps :
    Runs.run (State.next (kernelMachine handlers s)) ⟨world, echoLoop, asleep, none, taken⟩
        [.run, .run] =
      ⟨world, .halt echoTurn, true, none, taken⟩ :=
  rfl

/-- The line status while a byte is in the queue. -/
theorem status_ready {value : Char8} (hrx : world.devices.uart.rx = [value]) :
    ¬ world.devices.uart.status &&& 1 = 0 := by
  rw [Uart.status_ready, hrx]
  exact List.cons_ne_nil _ _

/-- `kgetc` reads a byte that is there. -/
theorem kgetc_run (h : Idle world.devices.uart) {value : Char8}
    (hrx : world.devices.uart.rx = [value]) (rest : BitVec 32 → Program KernelMemory Unit) :
    Runs.run (State.next (kernelMachine handlers s)) ⟨world, kgetc.bind rest, asleep, none, taken⟩
        [.run, .run, .run] =
      ⟨withUart world { world.devices.uart with rx := [] }, rest (value.setWidth 32), false, none,
        taken⟩ := by
  have hready : (world.devices.uart.status &&& 1 == 0) = false :=
    beq_eq_false_iff_ne.mpr (status_ready hrx)
  have hpoll : State.next (kernelMachine handlers s) (State.next (kernelMachine handlers s)
      ⟨world, kgetc.bind rest, asleep, none, taken⟩ .run) .run =
      ⟨world, (read com1Port).bind fun c => rest (c.setWidth 32), false, none, taken⟩ := by
    show (⟨world, if (world.devices.uart.status &&& 1 == 0) = true then _ else _, false, none,
      taken⟩ : State Devices KernelMemory) = _
    rw [hready, if_neg Bool.false_ne_true]
    rfl
  rw [Runs.run_cons, Runs.run_cons, hpoll]
  show (⟨{ world with devices := (deviceBus.inb com1Port world.devices).2 },
    rest ((deviceBus.inb com1Port world.devices).1.setWidth 32), false, none, taken⟩ :
      State Devices KernelMemory) = _
  rw [inb_data h.connected.dlab, hrx]
  rfl

/-- A byte that has been received is read and sent. -/
theorem echo_run (h : Idle world.devices.uart) {value : Char8}
    (hrx : world.devices.uart.rx = [value]) :
    Runs.run (State.next (kernelMachine handlers s)) ⟨world, echoTurn, asleep, none, taken⟩
        ([.run] ++ ([.run, .run, .run] ++ sayByte)) =
      ⟨afterText (withUart world { world.devices.uart with rx := [] }) [value], echoLoop, false,
        none, taken⟩ := by
  have hpoll : Runs.run (State.next (kernelMachine handlers s))
      ⟨world, echoTurn, asleep, none, taken⟩ [.run] =
      ⟨world, kgetc.bind fun ch => (kputc ch).bind fun _ => echoLoop, false, none, taken⟩ := by
    show (⟨world, (if world.devices.uart.status &&& 1 ≠ 0 then _ else _ :
      Program KernelMemory Bool).bind _, false, none, taken⟩ : State Devices KernelMemory) = _
    rw [if_pos (status_ready hrx)]
    rfl
  have hidle : Idle (withUart world { world.devices.uart with rx := [] }).devices.uart :=
    h.with_lists _ _ _
  have hbyte : (value.setWidth 32).setWidth 8 = value := by
    simp
  have hsent := @kputc_run handlers s _ false taken hidle (value.setWidth 32) fun _ => echoLoop
  rw [hbyte] at hsent
  rw [Runs.run_append, hpoll, Runs.run_append, kgetc_run h hrx]
  exact hsent

/-- The events with which a byte is typed: it arrives, an interrupt of the timer wakes the
processor, and the byte is read and sent. -/
def typeByte (value : Char8) : List (Event Outside) :=
  .outside (.receive value) ::
    (timerEvents ++ ([.run] ++ ([.run, .run, .run] ++ sayByte) ++ [.run, .run]))

/-- The world after a text has been typed, and all of it read. -/
def afterTyping (world : KernelWorld) (typed : List Char8) : KernelWorld where
  devices := { world.devices with
    uart := { world.devices.uart with
      rx := []
      wire := world.devices.uart.wire ++ typed
      arrived := world.devices.uart.arrived ++ typed } }
  memory := ⟨world.memory.msCount + BitVec.ofNat 64 typed.length⟩
  interrupts := world.interrupts

/-- Nothing is typed. -/
theorem after_typing_nil (hrx : world.devices.uart.rx = []) : afterTyping world [] = world := by
  obtain ⟨⟨pics, uart, pit, scancode⟩, memory, interrupts⟩ := world
  cases uart
  cases hrx
  simp [afterTyping]

/-- Two texts typed one after the other are one text. -/
theorem after_typing_append (world : KernelWorld) (first second : List Char8) :
    afterTyping (afterTyping world first) second = afterTyping world (first ++ second) := by
  simp only [afterTyping, List.append_assoc, List.length_append, BitVec.ofNat_add, BitVec.add_assoc]

/-- A byte arrives at an idle port. -/
theorem receive_idle {uart : Uart.Port} (h : Idle uart) (hrx : uart.rx = []) (value : Char8) :
    uart.receive value = { uart with rx := [value], arrived := uart.arrived ++ [value] } := by
  have hplace : uart.rx.length < uart.depth := by
    rw [hrx, Uart.Port.depth, if_pos h.connected.queued]
    decide
  rw [Uart.Port.receive, h.connected.loopback, if_neg Bool.false_ne_true, Uart.Port.accept,
    if_pos hplace, hrx]
  rfl

/-- One byte is typed while the processor sleeps. -/
theorem type_byte_run (hne : handlers.timer ≠ handlers.keyboard) (value : Char8)
    (hidle : Idle world.devices.uart) (hrx : world.devices.uart.rx = []) (h : Between world) :
    Runs.run (State.next (kernelMachine handlers (initIdt handlers s)))
        ⟨world, .halt echoTurn, true, none, taken⟩ (typeByte value) =
      ⟨afterTyping world [value], .halt echoTurn, true, none, taken ++ [0x20]⟩ := by
  have harrives : (⟨{ world with devices := world.devices.outside (.receive value) },
      .halt echoTurn, true, none, taken⟩ : State Devices KernelMemory) =
      ⟨withUart world { world.devices.uart with
        rx := [value], arrived := world.devices.uart.arrived ++ [value] },
        .halt echoTurn, true, none, taken⟩ := by
    rw [← receive_idle hidle hrx]
    rfl
  have hready : Idle (afterTick (withUart world { world.devices.uart with
      rx := [value], arrived := world.devices.uart.arrived ++ [value] })).devices.uart :=
    hidle.with_lists _ _ _
  have hecho := @echo_run handlers (initIdt handlers s) _ false (taken ++ [0x20]) hready value rfl
  rw [typeByte, Runs.run_cons]
  show Runs.run _ (⟨{ world with devices := world.devices.outside (.receive value) },
    .halt echoTurn, true, none, taken⟩ : State Devices KernelMemory) _ = _
  rw [harrives, Runs.run_append, timer_run hne (h.with_uart _), Runs.run_append]
  refine (congrArg (fun state => Runs.run (State.next (kernelMachine handlers (initIdt handlers s)))
    state [.run, .run]) hecho).trans ?_
  exact echo_sleeps

/-- The bytes that are typed while the processor sleeps come back. -/
theorem typed_run (hne : handlers.timer ≠ handlers.keyboard) (typed : List Char8)
    (hidle : Idle world.devices.uart) (hrx : world.devices.uart.rx = []) (h : Between world) :
    Runs.run (State.next (kernelMachine handlers (initIdt handlers s)))
        ⟨world, .halt echoTurn, true, none, taken⟩ (typed.flatMap typeByte) =
      ⟨afterTyping world typed, .halt echoTurn, true, none,
        taken ++ List.replicate typed.length 0x20⟩ := by
  induction typed generalizing world taken with
  | nil =>
      show (⟨world, .halt echoTurn, true, none, taken⟩ : State Devices KernelMemory) = _
      rw [after_typing_nil hrx, List.length_nil, List.replicate_zero, List.append_nil]
  | cons value typed ih =>
      have hnext : Idle (afterTyping world [value]).devices.uart :=
        hidle.with_lists _ _ _
      rw [List.flatMap_cons, Runs.run_append, type_byte_run hne value hidle hrx h]
      refine (ih hnext rfl ⟨h.pics, h.interrupts⟩).trans ?_
      rw [after_typing_append, List.append_assoc, List.length_cons, List.replicate_succ]
      rfl

/-! ## The whole run -/

/-- The events of a run in which a text is typed after the last message. -/
def typingEvents (script : Script) (typed : List Char8) : List (Event Outside) :=
  script.reports.flatMap (fun report => sayLine report 0) ++
    (waitEvents 3000 ++ (sayLine script.last 3000 ++ [.run, .run])) ++ typed.flatMap typeByte

/-- The world before the wait. -/
def reportedWorld (script : Script) (world : KernelWorld) : KernelWorld :=
  afterText (bootedWorld world) (linesAt 0 script.reports)

/-- The world in which the loop that echoes begins. -/
def echoWorld (script : Script) (world : KernelWorld) : KernelWorld :=
  afterText (afterWait (reportedWorld script world)) (script.last.line 3000 3000)

/-- The messages, the wait and the last message. -/
theorem start_end_run (hne : handlers.timer ≠ handlers.keyboard) (script : Script) (buff : StrBuff)
    (hidle : Idle world.devices.uart) :
    Runs.run (State.next (kernelMachine handlers (initIdt handlers s)))
        (sessionStart script buff (bootedWorld world))
        (script.reports.flatMap (fun report => sayLine report 0) ++
          (waitEvents 3000 ++ (sayLine script.last 3000 ++ [.run, .run]))) =
      ⟨echoWorld script world, .halt echoTurn, true, none, List.replicate 3000 0x20⟩ := by
  have hstart : Idle (bootedWorld world).devices.uart := hidle
  have hafter : Idle (reportedWorld script world).devices.uart := hstart.after_text _
  have hbetween : Between (reportedWorld script world) := ⟨booted_pics world, rfl⟩
  have hreports : ∃ said, Runs.run (State.next (kernelMachine handlers (initIdt handlers s)))
      (sessionStart script buff (bootedWorld world))
      (script.reports.flatMap fun report => sayLine report 0) =
      ⟨reportedWorld script world, (waitUntil 3000).bind fun _ =>
        (serialPrintf script.last.order said script.last.format script.last.args).bind fun _ =>
          echoLoop, false, none, []⟩ :=
    report_all_run hstart script.reports buff _
  obtain ⟨said, hreports⟩ := hreports
  have hlast : ∃ after, Runs.run (State.next (kernelMachine handlers (initIdt handlers s)))
      ⟨afterWait (reportedWorld script world),
        (serialPrintf script.last.order said script.last.format script.last.args).bind fun _ =>
          echoLoop, false, none, [] ++ List.replicate 3000 0x20⟩ (sayLine script.last 3000) =
      ⟨echoWorld script world, (fun (_ : StrBuff) => echoLoop) after, false, none,
        [] ++ List.replicate 3000 0x20⟩ :=
    @serial_printf_run handlers (initIdt handlers s) (afterWait (reportedWorld script world))
      ([] ++ List.replicate 3000 0x20) hafter script.last said fun _ => echoLoop
  obtain ⟨after, hlast⟩ := hlast
  rw [Runs.run_append, hreports, Runs.run_append, wait_run hne _ hbetween rfl, Runs.run_append,
    hlast]
  exact echo_sleeps

/-- The kernel, from the world that `init_idt` leaves on, prints its messages, waits for three
seconds, and sends back whatever is typed then. -/
theorem typed_echoed (hne : handlers.timer ≠ handlers.keyboard) (script : Script) (buff : StrBuff)
    (hidle : Idle world.devices.uart) (hrx : world.devices.uart.rx = []) (typed : List Char8) :
    sessionRun handlers s script buff (bootedWorld world) (typingEvents script typed) =
      ⟨afterTyping (echoWorld script world) typed, .halt echoTurn, true, none,
        List.replicate 3000 0x20 ++ List.replicate typed.length 0x20⟩ := by
  have hecho : Idle (echoWorld script world).devices.uart :=
    hidle.with_lists _ _ _
  rw [sessionRun, typingEvents, Runs.run_append, start_end_run hne script buff hidle]
  exact typed_run hne typed hecho hrx ⟨booted_pics world, rfl⟩

end SiStultum
