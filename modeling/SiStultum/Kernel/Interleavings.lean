import SiStultum.Kernel.Session

/-!
# The kernel with its interrupts

The end of `_start` runs with interrupts enabled, while the devices request interrupts and the
serial line takes and brings bytes in any order. `MainStep` and `ServiceStep` are all that the
programs can do to the devices and the memory. From them follow the parts of the invariant:
`Lines` (the controllers), `Ticking` (`ms_count`), `Sending` and `Receiving` (the serial port).
`session_kept` is the invariant over every run.
-/

namespace SiStultum

open PortPrograms PortPrograms.Program

variable {script : Script} {world after : KernelWorld} {spoken later : Spoken}
variable {service done : Service}

/-! ## What a step can do -/

/-- What an access of the main program does. -/
inductive MainStep (script : Script) (world : KernelWorld) (spoken : Spoken) :
    KernelWorld → Spoken → Prop where
  | status :
      MainStep script world spoken world
        { spoken with
          empty := transmitterEmpty world.devices.uart.status
          ready := dataReady world.devices.uart.status }
  | hear (hready : spoken.ready = true) :
      MainStep script world spoken
        (withUart world { world.devices.uart with rx := world.devices.uart.rx.tail })
        { spoken with heard := spoken.heard ++ [world.devices.uart.rx.headD 0], ready := false }
  | say (value : Char8) (hempty : spoken.empty = true)
      (hdue : spoken.said ++ [value] <+: script.text spoken) :
      MainStep script world spoken (withUart world (world.devices.uart.send value))
        { spoken with said := spoken.said ++ [value], empty := false }
  | time :
      MainStep script world spoken world
        { spoken with clock := spoken.clock ++ [world.memory.msCount] }

/-- What an access of a handler does. -/
inductive ServiceStep (world : KernelWorld) (service : Service) :
    KernelWorld → Service → Prop where
  | status :
      ServiceStep world service world
        { service with empty := transmitterEmpty world.devices.uart.status }
  | scancode : ServiceStep world service world service
  | say (value : Char8) (hended : service.ended = false) (hempty : service.empty = true)
      (hdue : service.sent ++ [value] <+: serviceText service.vector) :
      ServiceStep world service (withUart world (world.devices.uart.send value))
        { service with sent := service.sent ++ [value], empty := false }
  | tick (hended : service.ended = false) (hvector : service.vector = 0x20)
      (hticked : service.ticked = false) :
      ServiceStep world service { world with memory := ⟨world.memory.msCount + 1⟩ }
        { service with ticked := true }
  | finish (hended : service.ended = false) (hcomplete : service.Complete) :
      ServiceStep world service
        { world with
          devices := { world.devices with
            pics.master := world.devices.pics.master.endOfInterrupt } }
        { service with ended := true }

/-- The line status says what the port holds, and reading it changes nothing. -/
theorem inb_status (devices : Devices) :
    deviceBus.inb (com1Port + 5) devices = (devices.uart.status, devices) :=
  inb_com1 (by decide) devices

/-- The data port gives the oldest byte of the queue. -/
theorem inb_data {devices : Devices} (h : devices.uart.dlab = false) :
    deviceBus.inb com1Port devices =
      (devices.uart.rx.headD 0,
        { devices with uart := { devices.uart with rx := devices.uart.rx.tail } }) := by
  have hport := inb_com1 (show (0 : BitVec 16) < 8 by decide) devices
  rw [show com1Port + 0 = com1Port from rfl] at hport
  rw [hport]
  show ((devices.uart.read 0).1, { devices with uart := (devices.uart.read 0).2 }) = _
  rw [Uart.read_data h]

/-- A byte for the data port is sent. -/
theorem outb_data {devices : Devices} (h : devices.uart.dlab = false) (value : BitVec 8) :
    deviceBus.outb com1Port value devices =
      { devices with uart := devices.uart.send value } := by
  have hport := outb_com1 (show (0 : BitVec 16) < 8 by decide) value devices
  rw [show com1Port + 0 = com1Port from rfl] at hport
  rw [hport]
  show { devices with uart := devices.uart.write 0 value } = _
  rw [Uart.write_data h]

/-- An access that the protocol of the main program allows. -/
theorem main_step {event : Access KernelMemory} (hdlab : world.devices.uart.dlab = false)
    (hallowed : script.protocol.allowed spoken event)
    (hobserved : Interrupts.Observed deviceBus world event) :
    MainStep script world spoken (perform deviceBus world event) (spoken.next event) := by
  cases event with
  | read port value =>
      have hvalue : value = (deviceBus.inb port world.devices).1 := hobserved
      obtain rfl | ⟨rfl, hready⟩ : port = com1Port + 5 ∨ port = com1Port ∧ spoken.ready = true :=
        hallowed
      · rw [inb_status] at hvalue
        subst hvalue
        exact .status
      · have hstep : MainStep script world spoken _ _ := .hear hready
        rw [inb_data hdlab] at hvalue
        subst hvalue
        rw [show perform deviceBus world (.read com1Port _) = { world with
          devices := (deviceBus.inb com1Port world.devices).2 } from rfl, inb_data hdlab]
        exact hstep
  | write port value =>
      obtain ⟨rfl, hempty, hdue⟩ : port = com1Port ∧ spoken.empty = true ∧
        spoken.said ++ [value] <+: script.text spoken := hallowed
      have hstep : MainStep script world spoken _ _ := .say value hempty hdue
      rw [show perform deviceBus world (.write com1Port value) = { world with
        devices := deviceBus.outb com1Port value world.devices } from rfl, outb_data hdlab]
      exact hstep
  | load memory =>
      have hmemory : memory = world.memory := hobserved
      subst hmemory
      exact .time
  | store update => exact hallowed.elim
  | flag enabled => exact hallowed.elim

/-- An access that the protocol of the handlers allows. -/
theorem service_step {event : Access KernelMemory} (hdlab : world.devices.uart.dlab = false)
    (hallowed : serviceProtocol.allowed service event)
    (hobserved : Interrupts.Observed deviceBus world event) :
    ServiceStep world service (perform deviceBus world event) (service.next event) := by
  cases event with
  | read port value =>
      have hvalue : value = (deviceBus.inb port world.devices).1 := hobserved
      obtain rfl | rfl : port = com1Port + 5 ∨ port = keyboardData := hallowed
      · rw [inb_status] at hvalue
        subst hvalue
        exact .status
      · exact .scancode
  | write port value =>
      obtain ⟨hended, ⟨rfl, hempty, hdue⟩ | ⟨rfl, rfl, hcomplete⟩⟩ :
        service.ended = false ∧ (port = com1Port ∧ service.empty = true ∧
            service.sent ++ [value] <+: serviceText service.vector ∨
          port = pic1Command ∧ value = picEoi ∧ service.Complete) := hallowed
      · have hstep : ServiceStep world service _ _ := .say value hended hempty hdue
        rw [show perform deviceBus world (.write com1Port value) = { world with
          devices := deviceBus.outb com1Port value world.devices } from rfl, outb_data hdlab]
        exact hstep
      · exact .finish hended hcomplete
  | load memory => exact hallowed.elim
  | store update =>
      obtain ⟨hended, hvector, hticked, hupdate⟩ : service.ended = false ∧
        service.vector = 0x20 ∧ service.ticked = false ∧
          ∀ memory, (update memory).msCount = memory.msCount + 1 := hallowed
      have hstep : ServiceStep world service _ _ := .tick hended hvector hticked
      have hmemory : update world.memory = ⟨world.memory.msCount + 1⟩ := by
        rw [← hupdate world.memory]
      rw [show perform deviceBus world (.store update) = { world with
        memory := update world.memory } from rfl, hmemory]
      exact hstep
  | flag enabled => exact hallowed.elim

/-! ## The controllers -/

/-- The controllers as `init_idt` leaves them: only the lines of the timer and of the keyboard are
not masked. -/
structure Configured (pics : Pic.Pair) : Prop where
  phase : pics.master.phase = .ready
  masks : pics.master.imr = 0xfc
  base : pics.master.base = 0x20
  autoEoi : pics.master.autoEoi = false
  slaveMasks : pics.slave.imr = 0xff

/-- The bit of a vector in the register of the first controller. -/
def serviceBit (vector : BitVec 8) : BitVec 8 :=
  if vector = 0x20 then 1 else 2

/-- The second controller, with all its lines masked, requests nothing. -/
theorem Configured.slave_request {pics : Pic.Pair} (h : Configured pics) :
    pics.slave.request = none := by
  cases hrequest : pics.slave.request with
  | none => rfl
  | some line =>
      obtain ⟨-, -, hmask, -⟩ := Pic.request_eq_some_iff.mp hrequest
      have hset : ∀ line : Fin 8, (0xff : BitVec 8).getLsbD line = true := by decide
      rw [h.slaveMasks, hset] at hmask
      cases hmask

/-- Only two interrupts arrive. -/
theorem Configured.accept {pics taken : Pic.Pair} {vector : BitVec 8} (h : Configured pics)
    (hisr : pics.master.isr = 0) (haccept : pics.accept = some (vector, taken)) :
    (vector = 0x20 ∨ vector = 0x21) ∧ Configured taken ∧
      taken.master.isr = serviceBit vector := by
  have hfront : pics.front = pics.master := by
    rw [Pic.Pair.front, h.slave_request]
    rfl
  obtain ⟨hcascaded, -⟩ | ⟨-, line, hrequest, rfl, rfl⟩ := Pic.accept_cases haccept
  · rw [Pic.Pair.Cascaded, h.slave_request] at hcascaded
    exact absurd hcascaded.2 Bool.false_ne_true
  · obtain ⟨-, -, hmask, -⟩ := Pic.request_eq_some_iff.mp hrequest
    rw [hfront] at hmask ⊢
    rw [h.masks] at hmask
    have hlines : ∀ line : Fin 8, (0xfc : BitVec 8).getLsbD line = false → line = 0 ∨ line = 1 := by
      decide
    have hbits : (pics.master.acknowledge line).isr = Pic.withLine 0 line := by
      rw [Pic.Chip.acknowledge, h.autoEoi, hisr]
      rfl
    have hvector : pics.master.vector line = 0x20 ||| BitVec.ofNat 8 line.val := by
      rw [Pic.Chip.vector, h.base]
    refine ⟨?_, ⟨h.phase, h.masks, h.base, h.autoEoi, h.slaveMasks⟩, ?_⟩
    · rw [hvector]
      rcases hlines line hmask with rfl | rfl
      · exact .inl rfl
      · exact .inr rfl
    · show (pics.master.acknowledge line).isr = _
      rw [hbits, hvector]
      rcases hlines line hmask with rfl | rfl <;> rfl

/-- The end of the interrupt in service. -/
theorem end_of_service {chip : Pic.Chip} {vector : BitVec 8} (h : chip.isr = serviceBit vector) :
    chip.endOfInterrupt.isr = 0 := by
  rw [Pic.Chip.endOfInterrupt, h, serviceBit]
  by_cases htimer : vector = 0x20
  · rw [if_pos htimer]
    rfl
  · rw [if_neg htimer]
    rfl

/-- The end of an interrupt leaves the controllers as they were set up. -/
theorem configured_end {pics : Pic.Pair} (h : Configured pics) :
    Configured { pics with master := pics.master.endOfInterrupt } := by
  have hkept : ∀ chip : Pic.Chip, chip.endOfInterrupt = { chip with
      isr := chip.endOfInterrupt.isr } := by
    intro chip
    rw [Pic.Chip.endOfInterrupt]
    cases Pic.lowest chip.isr <;> rfl
  rw [hkept]
  exact ⟨h.phase, h.masks, h.base, h.autoEoi, h.slaveMasks⟩

/-- So does a request, which puts nothing in service. -/
theorem configured_raise {pics : Pic.Pair} (h : Configured pics) (line : Fin 16) :
    Configured (pics.raise line) ∧ (pics.raise line).master.isr = pics.master.isr := by
  rw [Pic.Pair.raise]
  split
  · exact ⟨⟨h.phase, h.masks, h.base, h.autoEoi, h.slaveMasks⟩, rfl⟩
  · exact ⟨⟨h.phase, h.masks, h.base, h.autoEoi, h.slaveMasks⟩, rfl⟩

/-- Interrupts are enabled and nothing is in service, or they are disabled while a handler runs, and
its interrupt is in service until it is ended. -/
structure Lines (world : KernelWorld) (taken : List (BitVec 8)) (inner : Option Service) :
    Prop where
  configured : Configured world.devices.pics
  vectors : ∀ vector ∈ taken, vector = 0x20 ∨ vector = 0x21
  idle : inner = none → world.devices.pics.master.isr = 0 ∧ world.interrupts = true
  current : ∀ service, inner = some service → taken.getLast? = some service.vector
  serving : ∀ service, inner = some service → world.interrupts = false ∧
    world.devices.pics.master.isr = if service.ended then 0 else serviceBit service.vector

variable {taken : List (BitVec 8)} {inner : Option Service}

/-- The main program does not touch the controllers. -/
theorem Lines.main (h : Lines world taken none) (hstep : MainStep script world spoken after later) :
    Lines after taken none := by
  cases hstep with
  | status | hear _ | say _ _ _ | time =>
      exact ⟨h.configured, h.vectors, h.idle, h.current, h.serving⟩

/-- A handler keeps its interrupt in service until it ends it. -/
theorem Lines.handler (h : Lines world taken (some service))
    (hstep : ServiceStep world service after done) : Lines after taken (some done) := by
  obtain ⟨hinterrupts, hisr⟩ := h.serving service rfl
  have hlast := h.current service rfl
  cases hstep with
  | finish hended hcomplete =>
      rw [hended, if_neg Bool.false_ne_true] at hisr
      refine ⟨configured_end h.configured, h.vectors, nofun, ?_, ?_⟩
      · rintro _ ⟨⟩
        exact hlast
      · rintro _ ⟨⟩
        exact ⟨hinterrupts, end_of_service hisr⟩
  | status | scancode | say _ _ _ _ | tick _ _ _ =>
      refine ⟨h.configured, h.vectors, nofun, ?_, ?_⟩
      · rintro _ ⟨⟩
        exact hlast
      · rintro _ ⟨⟩
        exact ⟨hinterrupts, hisr⟩

/-- The interrupt that is taken is of the timer or of the keyboard, and is put in service. -/
theorem Lines.take (h : Lines world taken none) {vector : BitVec 8} {pics : Pic.Pair}
    (haccept : world.devices.pics.accept = some (vector, pics)) :
    (vector = 0x20 ∨ vector = 0x21) ∧
      Lines ⟨{ world.devices with pics := pics }, world.memory, false⟩ (taken ++ [vector])
        (some (Service.start vector)) := by
  obtain ⟨hvector, hconfigured, hisr⟩ := h.configured.accept (h.idle rfl).1 haccept
  refine ⟨hvector, hconfigured, ?_, nofun, ?_, ?_⟩
  · intro other hmem
    rcases List.mem_append.mp hmem with hold | hnew
    · exact h.vectors other hold
    · rwa [List.mem_singleton.mp hnew]
  · rintro _ ⟨⟩
    exact List.getLast?_concat
  · rintro _ ⟨⟩
    exact ⟨rfl, hisr⟩

/-- A handler that returns has ended its interrupt. -/
theorem Lines.leave (h : Lines world taken (some service)) (hreturns : service.Returns) :
    Lines { world with interrupts := true } taken none := by
  obtain ⟨-, hisr⟩ := h.serving service rfl
  rw [hreturns.ended, if_pos rfl] at hisr
  exact ⟨h.configured, h.vectors, fun _ => ⟨hisr, rfl⟩, nofun, nofun⟩

/-- What happens outside puts nothing in service. -/
theorem Lines.outside (h : Lines world taken inner) (event : Outside) :
    Lines { world with devices := world.devices.outside event } taken inner := by
  have hraise : ∀ line devices, devices.pics = world.devices.pics.raise line →
      Lines { world with devices := devices } taken inner := by
    intro line devices hpics
    obtain ⟨hconfigured, hisr⟩ := configured_raise h.configured line
    refine ⟨?_, h.vectors, ?_, h.current, ?_⟩
    · rw [hpics]
      exact hconfigured
    · intro hnone
      rw [hpics, hisr]
      exact h.idle hnone
    · intro service hsome
      rw [hpics, hisr]
      exact h.serving service hsome
  cases event with
  | raise line => exact hraise line _ rfl
  | key scancode => exact hraise keyboardLine _ rfl
  | transmit | receive _ => exact ⟨h.configured, h.vectors, h.idle, h.current, h.serving⟩

/-! ## The milliseconds -/

/-- A timer interrupt that has been taken, and not been counted. -/
def uncounted : Option Service → Nat
  | some service => if service.vector = 0x20 ∧ service.ticked = false then 1 else 0
  | none => 0

/-- `ms_count` counts the interrupts of the timer, and the main program has read it at times in
order. -/
structure Ticking (start : BitVec 64) (world : KernelWorld) (taken : List (BitVec 8))
    (spoken : Spoken) (inner : Option Service) : Prop where
  count : world.memory.msCount + BitVec.ofNat 64 (uncounted inner) =
    start + BitVec.ofNat 64 (taken.count 0x20)
  clock : ∃ times : List Nat, spoken.clock = times.map (fun time => start + BitVec.ofNat 64 time) ∧
    times.Pairwise (· ≤ ·) ∧ ∀ time ∈ times, time ≤ taken.count 0x20

variable {start : BitVec 64}

/-- A time that the main program reads is the number of the interrupts so far. -/
theorem Ticking.main (h : Ticking start world taken spoken none)
    (hstep : MainStep script world spoken after later) :
    Ticking start after taken later none := by
  cases hstep with
  | status | hear _ | say _ _ _ => exact ⟨h.count, h.clock⟩
  | time =>
      refine ⟨h.count, ?_⟩
      obtain ⟨times, hclock, hsorted, hbound⟩ := h.clock
      have hcount : world.memory.msCount = start + BitVec.ofNat 64 (taken.count 0x20) := by
        simpa [uncounted] using h.count
      refine ⟨times ++ [taken.count 0x20], ?_, ?_, ?_⟩
      · rw [List.map_append, hclock, hcount]
        rfl
      · rw [List.pairwise_append]
        refine ⟨hsorted, List.pairwise_singleton _ _, fun time hmem other hother => ?_⟩
        rw [List.mem_singleton.mp hother]
        exact hbound time hmem
      · intro time hmem
        rcases List.mem_append.mp hmem with hold | hnew
        · exact hbound time hold
        · exact Nat.le_of_eq (List.mem_singleton.mp hnew)

/-- The timer's handler counts its interrupt. -/
theorem Ticking.handler (h : Ticking start world taken spoken (some service))
    (hstep : ServiceStep world service after done) :
    Ticking start after taken spoken (some done) := by
  cases hstep with
  | status | scancode | say _ _ _ _ | finish _ _ => exact ⟨h.count, h.clock⟩
  | tick hended hvector hticked =>
      refine ⟨?_, h.clock⟩
      have hcount := h.count
      rw [uncounted, if_pos ⟨hvector, hticked⟩] at hcount
      rw [uncounted, if_neg (by simp)]
      simpa using hcount

/-- An interrupt of the timer is not counted when it is taken. -/
theorem Ticking.take (h : Ticking start world taken spoken none) {vector : BitVec 8}
    (devices : Devices) :
    Ticking start ⟨devices, world.memory, false⟩ (taken ++ [vector]) spoken
      (some (Service.start vector)) := by
  have hgrow : taken.count 0x20 ≤ (taken ++ [vector]).count 0x20 := by
    rw [List.count_append]
    omega
  have hone : uncounted (some (Service.start vector)) = [vector].count 0x20 := by
    rw [uncounted, List.count_singleton]
    by_cases htimer : vector = 0x20 <;> simp [Service.start, htimer]
  refine ⟨?_, ?_⟩
  · have hcount := h.count
    rw [hone, List.count_append, BitVec.ofNat_add, ← BitVec.add_assoc, ← hcount]
    simp [uncounted]
  · obtain ⟨times, hclock, hsorted, hbound⟩ := h.clock
    exact ⟨times, hclock, hsorted, fun time hmem => (hbound time hmem).trans hgrow⟩

/-- It is counted when the handler returns. -/
theorem Ticking.leave (h : Ticking start world taken spoken (some service))
    (hreturns : service.Returns) :
    Ticking start { world with interrupts := true } taken spoken none := by
  refine ⟨?_, h.clock⟩
  have hcounted : uncounted (some service) = 0 := by
    rw [uncounted, hreturns.complete.ticked]
    by_cases htimer : service.vector = 0x20 <;> simp [htimer]
  rw [← h.count, hcounted]
  rfl

/-! ## The bytes to the line -/

/-- `out` is `said`, with `n` copies of a text put in between. -/
inductive Woven {α : Type} (text : List α) : List α → Nat → List α → Prop where
  | nil : Woven text [] 0 []
  | one {said out : List α} {n : Nat} (value : α) (h : Woven text said n out) :
      Woven text (said ++ [value]) n (out ++ [value])
  | text {said out : List α} {n : Nat} (h : Woven text said n out) :
      Woven text said (n + 1) (out ++ text)

/-- The keyboard's handler that runs. -/
def underway : Option Service → Nat
  | some service => if service.vector = 0x21 then 1 else 0
  | none => 0

/-- What the handler that runs has printed. -/
def partialText : Option Service → List Char8
  | some service => service.sent
  | none => []

/-- Nothing is lost, and the line gets what the main program says, with the keyboard's text whole
in between. -/
structure Sending (origin uart : Uart.Port) (taken : List (BitVec 8)) (spoken : Spoken)
    (inner : Option Service) : Prop where
  connected : Connected uart
  lost : uart.lost = origin.lost
  room : uart.tx.length ≤ 2
  main : spoken.empty = true → uart.tx.length ≤ 1
  handler : ∀ service, inner = some service → service.empty = true → uart.tx = []
  sent : ∀ service, inner = some service → service.sent <+: serviceText service.vector
  output : ∃ whole n, Woven keyboardText spoken.said n whole ∧
    n + underway inner = taken.count 0x21 ∧
      uart.output = origin.output ++ whole ++ partialText inner

variable {origin uart : Uart.Port}

/-- The line status says whether bytes are still to be sent. -/
theorem transmitter_empty_iff : transmitterEmpty uart.status = true ↔ uart.tx = [] := by
  rw [transmitterEmpty, bne_iff_ne, ne_eq, Uart.status_empty, not_not]

/-- The line status says whether a byte can be read. -/
theorem data_ready_iff : dataReady uart.status = true ↔ uart.rx ≠ [] := by
  rw [dataReady, bne_iff_ne, ne_eq, Uart.status_ready]

/-- There is a place for one more byte. -/
theorem Connected.place (h : Connected uart) (hroom : uart.tx.length ≤ 2) :
    uart.tx.length < uart.depth := by
  rw [Uart.Port.depth, if_pos h.queued]
  omega

/-- The port after a byte for which there is room. -/
theorem Sending.send (h : Sending origin uart taken spoken inner) (value : Char8) :
    uart.send value = { uart with tx := uart.tx ++ [value] } ∧
      (uart.send value).output = uart.output ++ [value] :=
  ⟨Uart.send_place h.connected.loopback (h.connected.place h.room) value,
    Uart.output_send h.connected.loopback (h.connected.place h.room) value⟩

/-- The main program sends what it says. -/
theorem Sending.main_step (h : Sending origin world.devices.uart taken spoken none)
    (hstep : MainStep script world spoken after later) :
    Sending origin after.devices.uart taken later none := by
  cases hstep with
  | status =>
      refine ⟨h.connected, h.lost, h.room, fun hempty => ?_, nofun, nofun, h.output⟩
      rw [transmitter_empty_iff.mp hempty]
      exact Nat.zero_le 1
  | hear hready =>
      obtain ⟨hdlab, hloop, hqueued⟩ := h.connected
      exact ⟨⟨hdlab, hloop, hqueued⟩, h.lost, h.room, h.main, nofun, nofun, h.output⟩
  | time => exact ⟨h.connected, h.lost, h.room, h.main, nofun, nofun, h.output⟩
  | say value hempty hdue =>
      obtain ⟨hsend, houtput⟩ := h.send value
      have hroom := h.main hempty
      obtain ⟨hdlab, hloop, hqueued⟩ := h.connected
      obtain ⟨whole, n, hwoven, hcount, hwritten⟩ := h.output
      refine ⟨?_, ?_, ?_, nofun, nofun, nofun, whole ++ [value], n, hwoven.one value, hcount, ?_⟩
      · rw [with_uart_uart, hsend]
        exact ⟨hdlab, hloop, hqueued⟩
      · rw [with_uart_uart, hsend]
        exact h.lost
      · rw [with_uart_uart, hsend, List.length_append, List.length_singleton]
        omega
      · rw [with_uart_uart, houtput, hwritten]
        simp [partialText]

/-- The keyboard's handler sends its text. -/
theorem Sending.service_step (h : Sending origin world.devices.uart taken spoken (some service))
    (hstep : ServiceStep world service after done) :
    Sending origin after.devices.uart taken spoken (some done) := by
  cases hstep with
  | status =>
      refine ⟨h.connected, h.lost, h.room, h.main, ?_, ?_, h.output⟩
      · rintro _ ⟨⟩ hempty
        exact transmitter_empty_iff.mp hempty
      · rintro _ ⟨⟩
        exact h.sent service rfl
  | scancode | tick _ _ _ | finish _ _ =>
      refine ⟨h.connected, h.lost, h.room, h.main, ?_, ?_, h.output⟩
      · rintro _ ⟨⟩ hempty
        exact h.handler service rfl hempty
      · rintro _ ⟨⟩
        exact h.sent service rfl
  | say value hended hempty hdue =>
      obtain ⟨hsend, houtput⟩ := h.send value
      have hnone := h.handler service rfl hempty
      obtain ⟨hdlab, hloop, hqueued⟩ := h.connected
      obtain ⟨whole, n, hwoven, hcount, hwritten⟩ := h.output
      refine ⟨?_, ?_, ?_, fun _ => ?_, ?_, ?_, whole, n, hwoven, hcount, ?_⟩
      · rw [with_uart_uart, hsend]
        exact ⟨hdlab, hloop, hqueued⟩
      · rw [with_uart_uart, hsend]
        exact h.lost
      · rw [with_uart_uart, hsend, hnone]
        exact Nat.le_succ 1
      · rw [with_uart_uart, hsend, hnone]
        exact Nat.le_refl 1
      · rintro _ ⟨⟩ hfalse
        cases hfalse
      · rintro _ ⟨⟩
        exact hdue
      · rw [with_uart_uart, houtput, hwritten, List.append_assoc]
        rfl

/-- A handler that begins has sent nothing yet. -/
theorem Sending.take (h : Sending origin uart taken spoken none) {vector : BitVec 8} :
    Sending origin uart (taken ++ [vector]) spoken (some (Service.start vector)) := by
  obtain ⟨whole, n, hwoven, hcount, hwritten⟩ := h.output
  refine ⟨h.connected, h.lost, h.room, h.main, ?_, ?_, whole, n, hwoven, ?_, hwritten⟩
  · rintro _ ⟨⟩ hfalse
    cases hfalse
  · rintro _ ⟨⟩
    exact List.nil_prefix
  · have hone : underway (some (Service.start vector)) = [vector].count 0x21 := by
      rw [underway, List.count_singleton]
      by_cases hkeyboard : vector = 0x21
      · rw [hkeyboard]
        rfl
      · rw [if_neg (show ¬ (Service.start vector).vector = 0x21 from hkeyboard),
          if_neg (by simpa using hkeyboard)]
    rw [List.count_append, ← hcount, hone]
    rfl

/-- A handler that returns has sent all of its text. -/
theorem Sending.leave (h : Sending origin uart taken spoken (some service))
    (hreturns : service.Returns) : Sending origin uart taken spoken none := by
  obtain ⟨whole, n, hwoven, hcount, hwritten⟩ := h.output
  refine ⟨h.connected, h.lost, h.room, h.main, nofun, nofun, ?_⟩
  rw [partialText, hreturns.complete.sent, serviceText] at hwritten
  rw [underway] at hcount
  by_cases hkeyboard : service.vector = 0x21
  · rw [if_pos hkeyboard] at hwritten hcount
    exact ⟨whole ++ keyboardText, n + 1, hwoven.text, hcount, by
      rw [hwritten, partialText, List.append_nil, List.append_assoc]⟩
  · rw [if_neg hkeyboard] at hwritten hcount
    exact ⟨whole, n, hwoven, hcount, hwritten⟩

/-- A byte that leaves was to be sent. -/
theorem Sending.outside (h : Sending origin world.devices.uart taken spoken inner)
    (event : Outside) :
    Sending origin (world.devices.outside event).uart taken spoken inner := by
  obtain ⟨hdlab, hloop, hqueued⟩ := h.connected
  cases event with
  | raise line => exact h
  | key scancode => exact h
  | transmit =>
      show Sending origin world.devices.uart.transmit taken spoken inner
      have houtput := Uart.output_transmit world.devices.uart
      obtain ⟨whole, n, hwoven, hcount, hwritten⟩ := h.output
      rw [← houtput] at hwritten
      refine ⟨?_, ?_, ?_, ?_, ?_, h.sent, whole, n, hwoven, hcount, hwritten⟩
      all_goals rw [Uart.Port.transmit]; split
      · exact ⟨hdlab, hloop, hqueued⟩
      · exact ⟨hdlab, hloop, hqueued⟩
      · exact h.lost
      · exact h.lost
      · exact h.room
      · next htx =>
          have hroom := h.room
          rw [htx] at hroom
          exact (Nat.le_succ _).trans hroom
      · exact h.main
      · next htx =>
          intro hempty
          have hroom := h.main hempty
          rw [htx] at hroom
          exact (Nat.le_succ _).trans hroom
      · exact h.handler
      · next htx =>
          intro service hsome hempty
          rw [h.handler service hsome hempty] at htx
          cases htx
  | receive value =>
      show Sending origin (world.devices.uart.receive value) taken spoken inner
      rw [Uart.Port.receive, hloop, if_neg Bool.false_ne_true, Uart.Port.accept]
      split
      · exact ⟨⟨hdlab, hloop, hqueued⟩, h.lost, h.room, h.main, h.handler, h.sent, h.output⟩
      · exact ⟨⟨hdlab, hloop, hqueued⟩, h.lost, h.room, h.main, h.handler, h.sent, h.output⟩

/-! ## The bytes from the line -/

/-- The main program gets the bytes that come in, in order, except those that find the queue
full. -/
structure Receiving (origin uart : Uart.Port) (spoken : Spoken) : Prop where
  ready : spoken.ready = true → uart.rx ≠ []
  bytes : ∃ came missed, uart.arrived = origin.arrived ++ came ∧
    uart.overrun = origin.overrun ++ missed ∧
    (spoken.heard ++ uart.rx).Sublist (origin.rx ++ came) ∧
    (spoken.heard ++ uart.rx).length + missed.length = (origin.rx ++ came).length

/-- The port keeps what has come in. -/
theorem Receiving.congr {other : Uart.Port} (h : Receiving origin uart spoken)
    (hrx : other.rx = uart.rx) (harrived : other.arrived = uart.arrived)
    (hoverrun : other.overrun = uart.overrun) : Receiving origin other spoken := by
  refine ⟨?_, ?_⟩
  · rw [hrx]
    exact h.ready
  · rw [hrx, harrived, hoverrun]
    exact h.bytes

/-- What the main program hears is the oldest byte of the queue. -/
theorem Receiving.main_step (h : Receiving origin world.devices.uart spoken)
    (hsending : Sending origin world.devices.uart taken spoken none)
    (hstep : MainStep script world spoken after later) :
    Receiving origin after.devices.uart later := by
  cases hstep with
  | status => exact ⟨data_ready_iff.mp, h.bytes⟩
  | time => exact ⟨h.ready, h.bytes⟩
  | say value _ _ =>
      have hsend := (hsending.send value).1
      have hsaid : Receiving origin world.devices.uart
          { spoken with said := spoken.said ++ [value], empty := false } := ⟨h.ready, h.bytes⟩
      rw [with_uart_uart, hsend]
      exact hsaid.congr rfl rfl rfl
  | hear hready =>
      obtain ⟨value, rest, hrx⟩ := List.exists_cons_of_ne_nil (h.ready hready)
      obtain ⟨came, missed, harrived, hoverrun, hbytes, hlength⟩ := h.bytes
      refine ⟨nofun, came, missed, harrived, hoverrun, ?_⟩
      have hmoved : spoken.heard ++ [world.devices.uart.rx.headD 0] ++ world.devices.uart.rx.tail =
          spoken.heard ++ world.devices.uart.rx := by
        rw [hrx]
        simp
      show (spoken.heard ++ [world.devices.uart.rx.headD 0] ++ world.devices.uart.rx.tail).Sublist
          _ ∧ (spoken.heard ++ [world.devices.uart.rx.headD 0] ++
            world.devices.uart.rx.tail).length + _ = _
      rw [hmoved]
      exact ⟨hbytes, hlength⟩

/-- A handler does not read what the line has sent. -/
theorem Receiving.service_step (h : Receiving origin world.devices.uart spoken)
    (hsending : Sending origin world.devices.uart taken spoken (some service))
    (hstep : ServiceStep world service after done) :
    Receiving origin after.devices.uart spoken := by
  cases hstep with
  | status | scancode | tick _ _ _ | finish _ _ => exact h
  | say value _ _ _ =>
      rw [with_uart_uart, (hsending.send value).1]
      exact h.congr rfl rfl rfl

/-- A byte that arrives goes to the end of the queue, or is missing for good. -/
theorem Receiving.outside (h : Receiving origin world.devices.uart spoken)
    (hloop : world.devices.uart.loopback = false) (event : Outside) :
    Receiving origin (world.devices.outside event).uart spoken := by
  cases event with
  | raise line => exact h
  | key scancode => exact h
  | transmit =>
      show Receiving origin world.devices.uart.transmit spoken
      rw [Uart.Port.transmit]
      split
      · exact h
      · exact h.congr rfl rfl rfl
  | receive value =>
      obtain ⟨came, missed, harrived, hoverrun, hbytes, hlength⟩ := h.bytes
      show Receiving origin (world.devices.uart.receive value) spoken
      rw [Uart.Port.receive, hloop, if_neg Bool.false_ne_true, Uart.Port.accept]
      split
      · refine ⟨fun _ => by simp, came ++ [value], missed, ?_, hoverrun, ?_, ?_⟩
        · rw [harrived, List.append_assoc]
        · rw [← List.append_assoc, ← List.append_assoc]
          exact hbytes.append (List.Sublist.refl _)
        · simp only [List.length_append] at hlength ⊢
          omega
      · refine ⟨h.ready, came ++ [value], missed ++ [value], ?_, ?_, ?_, ?_⟩
        · rw [harrived, List.append_assoc]
        · rw [hoverrun, List.append_assoc]
        · rw [← List.append_assoc]
          exact hbytes.trans (List.sublist_append_left _ _)
        · simp only [List.length_append] at hlength ⊢
          omega

/-! ## The whole -/

/-- The invariant of the kernel with its interrupts, from `origin` on. -/
structure Session (script : Script) (origin world : KernelWorld) (taken : List (BitVec 8))
    (spoken : Spoken) (inner : Option Service) : Prop where
  lines : Lines world taken inner
  counting : Ticking origin.memory.msCount world taken spoken inner
  sending : Sending origin.devices.uart world.devices.uart taken spoken inner
  receiving : Receiving origin.devices.uart world.devices.uart spoken
  said : spoken.said <+: script.text spoken

/-- What has been said goes with what is read next. -/
theorem said_step (h : spoken.said <+: script.text spoken)
    (hstep : MainStep script world spoken after later) : later.said <+: script.text later := by
  cases hstep with
  | status => exact h
  | say value _ hdue => exact hdue
  | hear _ =>
      have hmore := transcript_prefix script.last script.reports spoken.clock [] spoken.heard
        [world.devices.uart.rx.headD 0]
      rw [List.append_nil] at hmore
      exact h.trans hmore
  | time =>
      have hmore := transcript_prefix script.last script.reports spoken.clock
        [world.memory.msCount] spoken.heard []
      rw [List.append_nil] at hmore
      exact h.trans hmore

/-- The protocols of the programs and the invariant. -/
def sessionDiscipline (script : Script) (origin : KernelWorld) :
    Interrupts.Discipline Devices KernelMemory Spoken Service where
  main := script.protocol
  handler := serviceProtocol
  ended := Service.Returns
  inv := Session script origin

/-- The programs, the interrupts and the devices keep the invariant of the session. -/
theorem session_sound (script : Script) (origin : KernelWorld) {handlers : Handlers}
    (hne : handlers.timer ≠ handlers.keyboard) (s : IdtState) :
    (sessionDiscipline script origin).Sound (kernelMachine handlers (initIdt handlers s)) where
  main_reads := by
    intro world taken spoken hinv port
    have hsession : Session script origin world taken spoken none := hinv
    rintro rfl hready
    show dataReady (deviceBus.inb (com1Port + 5) world.devices).1 = true
    rw [inb_status]
    exact data_ready_iff.mpr (hsession.receiving.ready hready)
  handler_reads _ _ := trivial
  main_access := by
    intro world taken spoken event hinv hallowed hobserved
    have hsession : Session script origin world taken spoken none := hinv
    have hstep := main_step hsession.sending.connected.dlab hallowed hobserved
    exact ⟨hsession.lines.main hstep, hsession.counting.main hstep,
      hsession.sending.main_step hstep, hsession.receiving.main_step hsession.sending hstep,
      said_step hsession.said hstep⟩
  handler_access := by
    intro world taken spoken service event hinv hallowed hobserved
    have hsession : Session script origin world taken spoken (some service) := hinv
    have hstep := service_step hsession.sending.connected.dlab hallowed hobserved
    exact ⟨hsession.lines.handler hstep, hsession.counting.handler hstep,
      hsession.sending.service_step hstep, hsession.receiving.service_step hsession.sending hstep,
      hsession.said⟩
  take := by
    intro world taken spoken vector devices hinv henabled haccept
    have hsession : Session script origin world taken spoken none := hinv
    obtain ⟨⟨accepted, pics⟩, hpics, htaken⟩ := Option.map_eq_some_iff.mp haccept
    obtain ⟨rfl, rfl⟩ := Prod.mk.inj htaken
    obtain ⟨hvector, hlines⟩ := hsession.lines.take hpics
    refine ⟨Service.start accepted, ?_, hlines, hsession.counting.take _, hsession.sending.take,
      hsession.receiving, hsession.said⟩
    obtain ⟨htimer, hkeyboard⟩ := enter_init handlers hne s
    rcases hvector with rfl | rfl
    · show Meets serviceProtocol (enter handlers (initIdt handlers s) 0x20) _ _
      rw [htimer]
      exact timer_meets
    · show Meets serviceProtocol (enter handlers (initIdt handlers s) 0x21) _ _
      rw [hkeyboard]
      exact keyboard_meets
  leave := by
    intro world taken spoken service hinv hreturns
    have hsession : Session script origin world taken spoken (some service) := hinv
    exact ⟨hsession.lines.leave hreturns, hsession.counting.leave hreturns,
      hsession.sending.leave hreturns, hsession.receiving, hsession.said⟩
  outside := by
    intro world taken spoken inner event hinv
    have hsession : Session script origin world taken spoken inner := hinv
    exact ⟨hsession.lines.outside event, ⟨hsession.counting.count, hsession.counting.clock⟩,
      hsession.sending.outside event,
      hsession.receiving.outside hsession.sending.connected.loopback event, hsession.said⟩

/-! ## The beginning -/

/-- The end of `init_idt`, after `set_idt`. -/
def initIdtDevices : Program KernelMemory Unit := do
  picRemap 0x20 0x28
  initPit 1000
  write pic1Data 0xfc
  write pic2Data 0xff
  interruptFlag true

/-- The world after it. -/
def bootedWorld (world : KernelWorld) : KernelWorld where
  devices := { world.devices with
    pics := ⟨{ initialised world.devices.pics.master 0x20 4 with imr := 0xfc },
      { initialised world.devices.pics.slave 0x28 2 with imr := 0xff }⟩
    pit := ⟨0x36, 1193, none, true⟩ }
  memory := ⟨0⟩
  interrupts := true

/-- The end of `init_idt` sets up the controllers and the timer. -/
theorem completes_init_idt_devices (world : KernelWorld) :
    Completes deviceBus initIdtDevices world () (bootedWorld world) := by
  refine (Completes.of_exec (exec_pic_remap 0x20 0x28 world)).bind ?_
  refine (Completes.of_exec (exec_init_pit (by decide) _)).bind ?_
  exact .of_exec rfl

/-- The world as `init_idt` leaves it. -/
structure Booted (world : KernelWorld) : Prop where
  configured : Configured world.devices.pics
  isr : world.devices.pics.master.isr = 0
  interrupts : world.interrupts = true
  connected : Connected world.devices.uart
  room : world.devices.uart.tx.length ≤ 2

/-- The kernel after `init_idt`. -/
def sessionStart (script : Script) (buff : StrBuff) (origin : KernelWorld) :
    Interrupts.State Devices KernelMemory where
  world := origin
  main := startEnd script.reports script.last buff
  asleep := false
  handler := none
  taken := []

/-- The kernel after any events. -/
def sessionRun (handlers : Handlers) (s : IdtState) (script : Script) (buff : StrBuff)
    (origin : KernelWorld) (events : List (Interrupts.Event Outside)) :
    Interrupts.State Devices KernelMemory :=
  Runs.run (Interrupts.State.next (kernelMachine handlers (initIdt handlers s)))
    (sessionStart script buff origin) events

/-- The invariant holds in every run. -/
theorem session_kept {handlers : Handlers} (hne : handlers.timer ≠ handlers.keyboard)
    (s : IdtState) (script : Script) (buff : StrBuff) {origin : KernelWorld}
    (hbooted : Booted origin) (events : List (Interrupts.Event Outside)) :
    ∃ spoken inner, (sessionDiscipline script origin).Kept
      (sessionRun handlers s script buff origin events) spoken inner := by
  refine Interrupts.kept_run (session_sound script origin hne s) ⟨Spoken.start, none, ?_, ?_, ?_⟩
    events
  · exact start_end_meets script buff
  · trivial
  · refine ⟨⟨hbooted.configured, nofun, fun _ => ⟨hbooted.isr, hbooted.interrupts⟩, nofun, nofun⟩,
      ⟨rfl, [], rfl, List.Pairwise.nil, nofun⟩, ?_, ⟨nofun, [], [], ?_⟩, List.nil_prefix⟩
    · refine ⟨hbooted.connected, rfl, hbooted.room, nofun, nofun, nofun, [], 0, .nil, rfl, ?_⟩
      exact (by simp [partialText] : ∀ out : List Char8, out = out ++ [] ++ partialText none) _
    · rw [List.append_nil, List.append_nil, List.append_nil]
      exact ⟨rfl, rfl, List.Sublist.refl _, rfl⟩

end SiStultum
