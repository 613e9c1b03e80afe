import SiStultum.Kernel.Messages
import SiStultum.Kernel.Typing
import SiStultum.Library.Polling

/-!
# The kernel over whole runs

What the invariant of `Kernel.Interleavings` says about every run of the kernel after `init_idt`,
whatever the order of the steps, of the interrupts and of what the devices do: which interrupts are
taken (`session_interrupts`), what `ms_count` counts (`session_ticks`), that no byte to the serial
line is lost (`session_lossless`), what the line gets (`session_output`) and that it gets back what
it has sent (`session_echoes`). `session_settles` says that the kernel can always come to rest, and
`init_idt_boots_iff` that `init_idt` leaves the world in which the runs begin. `keyRun` is a
run that stops while a key is reported; `typing_echoes` is about one in which a text is typed.
-/

namespace SiStultum

open PortPrograms PortPrograms.Program
open Interrupts (Event Calm)

/-! ## The beginning -/

/-- The end of `init_idt`, from any state of the interrupt controllers and of the timer, leaves the
world in which the kernel runs exactly when `init_serial` has connected the serial port and at most
two bytes are still to be sent. -/
theorem init_idt_boots_iff (world : KernelWorld) :
    ∃ after, Completes deviceBus initIdtDevices world () after ∧
      after.memory.msCount = 0 ∧ after.devices.pit.period = some 1193 ∧
      (Booted after ↔ Connected world.devices.uart ∧ world.devices.uart.tx.length ≤ 2) := by
  have hperiod : (⟨0x36, 1193, none, true⟩ : Timer.Channel).period = some 1193 := by decide
  refine ⟨bootedWorld world, completes_init_idt_devices world, rfl, hperiod, ?_, ?_⟩
  · intro hbooted
    exact ⟨hbooted.connected, hbooted.room⟩
  · rintro ⟨hconnected, hroom⟩
    exact ⟨⟨rfl, rfl, rfl, rfl, rfl⟩, rfl, rfl, hconnected, hroom⟩

/-! ## What goes in and out -/

/-- What has gone in and out since `origin`: `clock` are the values of `ms_count` that the main
program has read, `heard` the bytes that it has read, and `said` those that it has written. -/
structure Traffic (script : Script) (origin : KernelWorld)
    (state : Interrupts.State Devices KernelMemory) (clock : List (BitVec 64))
    (heard said : List Char8) : Prop where
  times : ∃ times : List Nat,
    clock = times.map (fun time => origin.memory.msCount + BitVec.ofNat 64 time) ∧
      times.Pairwise (· ≤ ·) ∧ ∀ time ∈ times, time ≤ state.taken.count 0x20
  /-- The bytes come from the line in order, and only those that find the queue full are missing. -/
  arrivals : ∃ came missed,
    state.world.devices.uart.arrived = origin.devices.uart.arrived ++ came ∧
    state.world.devices.uart.overrun = origin.devices.uart.overrun ++ missed ∧
    (heard ++ state.world.devices.uart.rx).Sublist (origin.devices.uart.rx ++ came) ∧
    (heard ++ state.world.devices.uart.rx).length + missed.length =
      (origin.devices.uart.rx ++ came).length
  due : said <+: transcript script.last script.reports clock heard
  /-- The main program does not wait before all is said. -/
  complete : ∀ next, state.main = .halt next →
    said = transcript script.last script.reports clock heard ∧ AtRest script clock
  /-- The line gets what has been said, with one whole text of the keyboard's handler for each of
  its interrupts. -/
  output : ∃ whole n unfinished, Woven keyboardText said n whole ∧
    state.world.devices.uart.output = origin.devices.uart.output ++ whole ++ unfinished ∧
    unfinished <+: keyboardText ∧
    (state.handler = none → unfinished = [] ∧ n = state.taken.count 0x21)

/-- The invariant says what the traffic is. -/
theorem session_traffic {script : Script} {origin : KernelWorld}
    {state : Interrupts.State Devices KernelMemory} {spoken : Spoken}
    {inner : Option Service}
    (h : (sessionDiscipline script origin).Kept state spoken inner) :
    Traffic script origin state spoken.clock spoken.heard spoken.said := by
  have hsession : Session script origin state.world state.taken spoken inner := h.inv
  refine ⟨hsession.counting.clock, hsession.receiving.bytes, hsession.said, ?_, ?_⟩
  · intro next hhalt
    exact h.waits hhalt
  · obtain ⟨whole, n, hwoven, hcount, houtput⟩ := hsession.sending.output
    refine ⟨whole, n, partialText inner, hwoven, houtput, ?_, ?_⟩
    · cases inner with
      | none => exact List.nil_prefix
      | some service =>
          have hsent := hsession.sending.sent service rfl
          rw [serviceText] at hsent
          split at hsent
          · exact hsent
          · exact hsent.trans List.nil_prefix
    · intro hnone
      rw [h.handler_none.mp hnone] at hcount ⊢
      exact ⟨rfl, hcount⟩

/-- The machine after `init_serial`. -/
def connectedWorld : KernelWorld :=
  ⟨{ coldDevices with uart := testedUart coldDevices.uart }, ⟨0⟩, false⟩

/-- The machine after `init_idt`. -/
def startedWorld : KernelWorld :=
  bootedWorld connectedWorld

/-- The runs of the kernel begin there. -/
theorem booted_started : Booted startedWorld where
  configured := ⟨rfl, rfl, rfl, rfl, rfl⟩
  isr := rfl
  interrupts := rfl
  connected := ⟨rfl, rfl, rfl⟩
  room := Nat.zero_le 2

/-- The messages of a kernel that reads the milliseconds of each stamp first. -/
def keyScript : Script :=
  kernelScript (fun _ => .millisFirst) lastFrameFree lastFrameFree

/-- The timer interrupts before the first message, the message begins, a key is pressed, and its
handler writes. -/
def keyEvents : List (Event Outside) :=
  timerEvents ++ [.run, .run, .run, .run, .run, .outside .transmit, .outside (.key 0x1e),
    .interrupt, .run, .run, .run]

def keyRun : Interrupts.State Devices KernelMemory :=
  sessionRun kernelHandlers staleMemory keyScript clearBuff startedWorld keyEvents

/-- The text that is typed. -/
def typedText : List Char8 :=
  "fiat lvx".toList.map chr

/-! ## Bytes that leave -/

/-- The line takes all bytes that are to be sent. -/
def drain (devices : Devices) : List Outside :=
  List.replicate devices.uart.tx.length .transmit

/-- Then none is left. -/
theorem drain_tx (devices : Devices) :
    ((drain devices).foldl Devices.outside devices).uart.tx = [] := by
  have hfold : ∀ (n : Nat) (devices : Devices),
      ((List.replicate n Outside.transmit).foldl Devices.outside devices).uart =
        Uart.Port.transmit^[n] devices.uart := by
    intro n
    induction n with
    | zero => exact fun _ => rfl
    | succ n ih => exact fun devices => ih (devices.outside .transmit)
  rw [drain, hfold]
  exact Uart.transmit_all devices.uart

/-- The line only takes bytes meanwhile. -/
theorem drain_quiet (devices : Devices) : ∀ event ∈ drain devices, event = .transmit := by
  intro event hmem
  exact (List.mem_replicate.mp hmem).2

/-- An empty transmitter is all that the programs poll for. -/
theorem session_awaited (script : Script) (origin : KernelWorld) (handlers : Handlers)
    (s : IdtState) :
    (sessionDiscipline script origin).Awaited (kernelMachine handlers s) (· = .transmit) := by
  have hstatus : ∀ (devices : Devices) (port : BitVec 16), port = com1Port + 5 →
      transmitterEmpty
        (deviceBus.inb port ((drain devices).foldl Devices.outside devices)).1 = true := by
    rintro devices _ rfl
    rw [inb_status]
    exact transmitter_empty_iff.mpr (drain_tx devices)
  exact ⟨fun _ port => ⟨_, drain_quiet _, hstatus _ port⟩,
    fun _ port => ⟨_, drain_quiet _, hstatus _ port⟩, fun _ => id⟩

section

variable {handlers : Handlers} (s : IdtState) (script : Script) (buff : StrBuff)
variable {origin : KernelWorld} (events : List (Event Outside))

/-! ## Safety -/

/-- In every run only the interrupts of the timer and of the keyboard are taken, one at a time.
Interrupts are enabled and none is in service while the main program runs; they are disabled while a
handler runs, and no other interrupt than its own is in service. The main program does not end. -/
theorem session_interrupts (hne : handlers.timer ≠ handlers.keyboard) (hbooted : Booted origin) :
    let state := sessionRun handlers s script buff origin events
    (∀ vector ∈ state.taken, vector = 0x20 ∨ vector = 0x21) ∧
      (∀ value, state.main ≠ .done value) ∧
      (state.handler = none →
        state.world.interrupts = true ∧ state.world.devices.pics.master.isr = 0) ∧
      ∀ program, state.handler = some program →
        program ≠ .abort ∧ state.world.interrupts = false ∧
          ∃ before vector, state.taken = before ++ [vector] ∧
            (state.world.devices.pics.master.isr = 0 ∨
              state.world.devices.pics.master.isr = serviceBit vector) := by
  intro state
  obtain ⟨spoken, inner, hkept⟩ := session_kept hne s script buff hbooted events
  have hsession : Session script origin state.world state.taken spoken inner := hkept.inv
  refine ⟨hsession.lines.vectors, ?_, ?_, ?_⟩
  · intro value hdone
    have hmain := hkept.main
    rw [show (sessionRun handlers s script buff origin events).main = .done value from hdone]
      at hmain
    exact hmain
  · intro hnone
    obtain ⟨hisr, henabled⟩ := hsession.lines.idle (hkept.handler_none.mp hnone)
    exact ⟨henabled, hisr⟩
  · intro program hprogram
    cases inner with
    | none =>
        rw [show state.handler = none from hkept.handler_none.mpr rfl] at hprogram
        cases hprogram
    | some service =>
        obtain ⟨hdisabled, hisr⟩ := hsession.lines.serving service rfl
        have hlast := hsession.lines.current service rfl
        refine ⟨?_, hdisabled, state.taken.dropLast, service.vector, ?_, ?_⟩
        · rintro rfl
          have hserves := hkept.handler
          rw [show (sessionRun handlers s script buff origin events).handler = some .abort
            from hprogram] at hserves
          exact hserves
        · exact (List.dropLast_append_getLast? _ hlast).symm
        · rw [hisr]
          split
          · exact .inl rfl
          · exact .inr rfl

/-- The run that stops while a key is reported. -/
theorem key_interrupts :
    (∀ vector ∈ keyRun.taken, vector = 0x20 ∨ vector = 0x21) ∧
      (∀ value, keyRun.main ≠ .done value) ∧
      (keyRun.handler = none →
        keyRun.world.interrupts = true ∧ keyRun.world.devices.pics.master.isr = 0) ∧
      ∀ program, keyRun.handler = some program →
        program ≠ .abort ∧ keyRun.world.interrupts = false ∧
          ∃ before vector, keyRun.taken = before ++ [vector] ∧
            (keyRun.world.devices.pics.master.isr = 0 ∨
              keyRun.world.devices.pics.master.isr = serviceBit vector) :=
  session_interrupts staleMemory _ clearBuff keyEvents (by decide) booted_started

/-- In every run `ms_count` is the number of timer interrupts since `init_idt`, modulo `2 ^ 64`,
less one at most while the timer's handler runs, and exactly while the main program or the
keyboard's handler runs. -/
theorem session_ticks (hne : handlers.timer ≠ handlers.keyboard) (hbooted : Booted origin) :
    let state := sessionRun handlers s script buff origin events
    ∃ pending ≤ 1, state.world.memory.msCount + BitVec.ofNat 64 pending =
        origin.memory.msCount + BitVec.ofNat 64 (state.taken.count 0x20) ∧
      (state.handler = none ∨ state.taken.getLast? = some 0x21 → pending = 0) := by
  intro state
  obtain ⟨spoken, inner, hkept⟩ := session_kept hne s script buff hbooted events
  have hsession : Session script origin state.world state.taken spoken inner := hkept.inv
  refine ⟨uncounted inner, ?_, hsession.counting.count, ?_⟩
  · cases inner with
    | none => exact Nat.zero_le 1
    | some service =>
        rw [uncounted]
        split <;> omega
  · cases inner with
    | none => exact fun _ => rfl
    | some service =>
        rintro (hnone | hkey)
        · cases hkept.handler_none.mp hnone
        · -- the interrupt in service is the last one, and it is not the timer's
          have hvector : service.vector = 0x21 :=
            Option.some.inj ((hsession.lines.current service rfl).symm.trans hkey)
          rw [uncounted, hvector]
          rfl

/-- Its ticks: the timer's interrupt has been counted. -/
theorem key_ticks :
    ∃ pending ≤ 1, keyRun.world.memory.msCount + BitVec.ofNat 64 pending =
        startedWorld.memory.msCount + BitVec.ofNat 64 (keyRun.taken.count 0x20) ∧
      (keyRun.handler = none ∨ keyRun.taken.getLast? = some 0x21 → pending = 0) :=
  session_ticks staleMemory _ clearBuff keyEvents (by decide) booted_started

/-- In every run no byte for the serial line is lost: there are never more than two in the queue of
sixteen places, although a handler may write between a poll of the main program and its write. -/
theorem session_lossless (hne : handlers.timer ≠ handlers.keyboard) (hbooted : Booted origin) :
    let state := sessionRun handlers s script buff origin events
    state.world.devices.uart.lost = origin.devices.uart.lost ∧
      state.world.devices.uart.tx.length ≤ 2 := by
  intro state
  obtain ⟨spoken, inner, hkept⟩ := session_kept hne s script buff hbooted events
  have hsession : Session script origin state.world state.taken spoken inner := hkept.inv
  exact ⟨hsession.sending.lost, hsession.sending.room⟩

/-- Its bytes: the handler writes while the first message is on its way. -/
theorem key_lossless :
    keyRun.world.devices.uart.lost = startedWorld.devices.uart.lost ∧
      keyRun.world.devices.uart.tx.length ≤ 2 :=
  session_lossless staleMemory _ clearBuff keyEvents (by decide) booted_started

/-- In every run the line gets a part of the kernel's transcript, up to the point where the main
program is, with the text of the keyboard's handler whole in between. Each message of the script has
its own order of the two reads of `ms_count` for its stamp. -/
theorem session_output (hne : handlers.timer ≠ handlers.keyboard) (hbooted : Booted origin) :
    ∃ clock heard said,
      Traffic script origin (sessionRun handlers s script buff origin events) clock heard said := by
  obtain ⟨spoken, inner, hkept⟩ := session_kept hne s script buff hbooted events
  exact ⟨_, _, _, session_traffic hkept⟩

/-- Its traffic. -/
theorem key_output :
    ∃ clock heard said, Traffic keyScript startedWorld keyRun clock heard said :=
  session_output staleMemory _ clearBuff keyEvents (by decide) booted_started

/-- When the main program waits, no handler runs, and every byte that has come has found a place in
the queue and has been read, the line has got back all of them, at the end of the transcript. -/
theorem session_echoes (hne : handlers.timer ≠ handlers.keyboard) (hbooted : Booted origin)
    {next : Program KernelMemory Unit}
    (hhalt : (sessionRun handlers s script buff origin events).main = .halt next)
    (hnone : (sessionRun handlers s script buff origin events).handler = none)
    (hread : (sessionRun handlers s script buff origin events).world.devices.uart.rx = [])
    (hoverrun : (sessionRun handlers s script buff origin events).world.devices.uart.overrun =
      origin.devices.uart.overrun) :
    let state := sessionRun handlers s script buff origin events
    ∃ clock came whole, AtRest script clock ∧
      state.world.devices.uart.arrived = origin.devices.uart.arrived ++ came ∧
      state.world.devices.uart.output = origin.devices.uart.output ++ whole ∧
      Woven keyboardText
        (transcript script.last script.reports clock (origin.devices.uart.rx ++ came))
        (state.taken.count 0x21) whole := by
  intro state
  obtain ⟨spoken, inner, hkept⟩ := session_kept hne s script buff hbooted events
  have htraffic := session_traffic hkept
  obtain ⟨came, missed, harrived, hover, hbytes, hlength⟩ := htraffic.arrivals
  obtain ⟨whole, n, unfinished, hwoven, houtput, -, hended⟩ := htraffic.output
  obtain ⟨rfl, rfl⟩ := hended hnone
  have hfull : missed = [] := by
    rw [hoverrun] at hover
    exact List.self_eq_append_right.mp hover
  have hheard : spoken.heard = origin.devices.uart.rx ++ came := by
    rw [hread, List.append_nil] at hbytes hlength
    rw [hfull, List.length_nil, Nat.add_zero] at hlength
    exact hbytes.eq_of_length hlength
  obtain ⟨hsaid, hrest⟩ := htraffic.complete next hhalt
  rw [hsaid, hheard] at hwoven
  rw [List.append_nil] at houtput
  exact ⟨spoken.clock, came, whole, hrest, harrived, houtput, hwoven⟩

/-- The run in which a text is typed after the last message. -/
theorem typing_echoes :
    let state := sessionRun kernelHandlers staleMemory keyScript clearBuff startedWorld
      (typingEvents keyScript typedText)
    ∃ clock came whole, AtRest keyScript clock ∧
      state.world.devices.uart.arrived = startedWorld.devices.uart.arrived ++ came ∧
      state.world.devices.uart.output = startedWorld.devices.uart.output ++ whole ∧
      Woven keyboardText
        (transcript keyScript.last keyScript.reports clock (startedWorld.devices.uart.rx ++ came))
        (state.taken.count 0x21) whole := by
  have hidle : Idle connectedWorld.devices.uart := ⟨⟨rfl, rfl, rfl⟩, rfl⟩
  have hne : kernelHandlers.timer ≠ kernelHandlers.keyboard := by decide
  have hend := @typed_echoed kernelHandlers staleMemory connectedWorld hne keyScript clearBuff hidle
    rfl typedText
  have hhalt : (sessionRun kernelHandlers staleMemory keyScript clearBuff startedWorld
      (typingEvents keyScript typedText)).main = .halt echoTurn := by
    rw [startedWorld, hend]
  refine session_echoes staleMemory keyScript clearBuff (typingEvents keyScript typedText) hne
    booted_started hhalt ?_ ?_ ?_
  · rw [startedWorld, hend]
  · rw [startedWorld, hend]
    rfl
  · rw [startedWorld, hend]
    rfl

/-! ## Progress -/

/-- From every state of every run the kernel can come to rest without another interrupt: the handler
that runs returns, the main program comes to a wait and the processor sleeps, and the line has got
all that is to be said by then. All that happens outside for that is that the line takes bytes. -/
theorem session_settles (hne : handlers.timer ≠ handlers.keyboard) (hbooted : Booted origin) :
    ∃ more, Calm (· = .transmit) more ∧
      let state := sessionRun handlers s script buff origin (events ++ more)
      state.handler = none ∧ (∃ next, state.main = .halt next) ∧ state.asleep = true ∧
        state.taken = (sessionRun handlers s script buff origin events).taken ∧
        state.world.devices.uart.tx = [] ∧
        ∃ clock heard, AtRest script clock ∧ Traffic script origin state clock heard
          (transcript script.last script.reports clock heard) := by
  have hsound := session_sound script origin hne s
  obtain ⟨spoken, inner, hkept⟩ := session_kept hne s script buff hbooted events
  -- the kernel comes to a wait, and the line takes the bytes that are left
  obtain ⟨first, last, hcalm, hsettled, htaken, hasleep, next, hhalt⟩ :=
    hkept.settles hsound (session_awaited script origin handlers (initIdt handlers s))
  have hrun : ∀ more, sessionRun handlers s script buff origin (events ++ more) =
      Runs.run (Interrupts.State.next (kernelMachine handlers (initIdt handlers s)))
        (sessionRun handlers s script buff origin events) more := by
    intro more
    rw [sessionRun, Runs.run_append]
    rfl
  generalize hsettle : Runs.run
    (Interrupts.State.next (kernelMachine handlers (initIdt handlers s)))
    (sessionRun handlers s script buff origin events) first = settled
    at hsettled htaken hasleep hhalt
  have hdrained := hsettled.changes hsound (drain settled.world.devices)
  have htraffic := session_traffic hdrained
  refine ⟨first ++ (drain settled.world.devices).map .outside,
    Interrupts.calm_append hcalm (Interrupts.calm_changes (drain_quiet _)), ?_⟩
  rw [hrun, Runs.run_append, hsettle]
  have hhalts : (Runs.run (Interrupts.State.next (kernelMachine handlers (initIdt handlers s)))
      settled ((drain settled.world.devices).map .outside)).main = .halt next := by
    rw [Interrupts.run_changes]
    exact hhalt
  obtain ⟨hsaid, hrest⟩ := htraffic.complete next hhalts
  rw [hsaid] at htraffic
  refine ⟨hdrained.handler_none.mpr rfl, ⟨next, hhalts⟩, ?_, ?_, ?_, _, _, hrest, htraffic⟩
  · rw [Interrupts.run_changes]
    exact hasleep
  · rw [Interrupts.run_changes]
    exact htaken
  · rw [Interrupts.run_changes]
    exact drain_tx settled.world.devices

/-- The run that stops while a key is reported can come to rest. -/
theorem key_settles :
    ∃ more, Calm (· = .transmit) more ∧
      let state := sessionRun kernelHandlers staleMemory keyScript clearBuff startedWorld
        (keyEvents ++ more)
      state.handler = none ∧ (∃ next, state.main = .halt next) ∧ state.asleep = true ∧
        state.taken = keyRun.taken ∧ state.world.devices.uart.tx = [] ∧
        ∃ clock heard, AtRest keyScript clock ∧ Traffic keyScript startedWorld state clock heard
          (transcript keyScript.last keyScript.reports clock heard) :=
  session_settles staleMemory _ clearBuff keyEvents (by decide) booted_started

end

end SiStultum
