import SiStultum.Devices.Serial
import SiStultum.Kernel.InterruptGates
import SiStultum.Library.Interrupts

/-!
# The interrupt handlers

The handlers of `interrupts.c`, the code that the processor enters through a gate of the table, and
the end of `_start`, from the return of `init_idt` on: messages, a wait of three seconds, and the
loop that echoes what is typed. `kernelMachine` is the processor with its devices.

What the handlers of faults write to the screen, and the colour bars that `_start` draws, do not
touch the ports and are left out here.
-/

namespace SiStultum

open PortPrograms PortPrograms.Program

/-- `Timer_Handler`. No other access comes between the two of `ms_count++`. -/
def timerHandler : Program KernelMemory Unit := do
  modify fun memory => { memory with msCount := memory.msCount + 1 }
  picSendEoi 0

/-- What `Keyboard_Handler` prints. -/
def keyboardText : List Char8 :=
  " KB\n".toList.map chr

/-- `Keyboard_Handler`. -/
def keyboardHandler : Program KernelMemory Unit := do
  let _ ← kputs (keyboardText ++ [0])
  let _ ← read keyboardData
  picSendEoi 0

/-- The end of `PageFault_Handler`, `DoubleFault_Handler` and `GeneralProtectionFault_Handler`. -/
def faultHandler : Program KernelMemory Unit := do
  let _ ← kputs ("Aborted.\n".toList.map chr ++ [0])
  repeatWhile (pure true)

/-- The code at an address. -/
def codeAt (handlers : Handlers) (addr : BitVec 64) : Program KernelMemory Unit :=
  if addr = handlers.timer then timerHandler
  else if addr = handlers.keyboard then keyboardHandler
  else if addr = handlers.pageFault ∨ addr = handlers.doubleFault ∨
      addr = handlers.generalProtectionFault then faultHandler
  else .abort

/-- The code that the processor enters for a vector. -/
def enter (handlers : Handlers) (s : IdtState) (vector : BitVec 8) : Program KernelMemory Unit :=
  if gatePresent (gateAt s.mem s.idtr.offset vector) then
    codeAt handlers (gateOffset (gateAt s.mem s.idtr.offset vector))
  else .abort

/-- What the devices do by themselves. -/
inductive Outside where
  | raise (line : Fin 16)
  /-- The serial line takes a byte. -/
  | transmit
  | receive (value : BitVec 8)
  | key (scancode : BitVec 8)

/-- The keyboard's line is one of the lines of the controllers. -/
theorem keyboard_line_lt : 1 < 16 := by
  decide

/-- The line of the keyboard. -/
def keyboardLine : Fin 16 :=
  ⟨1, keyboard_line_lt⟩

def Devices.outside (devices : Devices) : Outside → Devices
  | .raise line => { devices with pics := devices.pics.raise line }
  | .transmit => { devices with uart := devices.uart.transmit }
  | .receive value => { devices with uart := devices.uart.receive value }
  | .key scancode => { devices with scancode := scancode, pics := devices.pics.raise keyboardLine }

/-- The processor, with the table that `init_idt` has loaded. -/
def kernelMachine (handlers : Handlers) (s : IdtState) :
    Interrupts.Machine Devices KernelMemory Outside where
  bus := deviceBus
  accept devices := devices.pics.accept.map fun taken => (taken.1, { devices with pics := taken.2 })
  service := enter handlers s
  outside := Devices.outside

/-! ## The end of `_start` -/

/-- A call of `serial_printf` with a complete format and arguments that it prints. -/
structure Report where
  /-- The order of its two reads of `ms_count`. -/
  order : ReadOrder
  pieces : List Piece
  args : List Arg
  text : List Char8
  prints : ∃ cnt, printedPieces pieces args = .ok ⟨text, cnt⟩

def Report.format (report : Report) : List Char8 :=
  formatOf report.pieces ++ [0]

/-- The calls of `serial_printf` in order. -/
def reportAll (buff : StrBuff) : List Report → Program KernelMemory StrBuff
  | [] => pure buff
  | report :: reports => do
      let buff ← serialPrintf report.order buff report.format report.args
      reportAll buff reports

/-- `while (ms_count < limit) asm("hlt")`. -/
def waitUntil (limit : BitVec 64) : Program KernelMemory Unit :=
  repeatWhile do
    let memory ← fetch
    if memory.msCount < limit then do
      wait
      pure true
    else pure false

/-- `if (serial_received()) { .. }`, after which the loop goes on. -/
def echoReceived : Program KernelMemory Bool := do
  let received ← serialReceived
  if received ≠ 0 then do
    let ch ← kgetc
    let _ ← kputc ch
    pure true
  else pure true

/-- `for (;;) { asm("hlt"); if (serial_received()) { .. } }`. -/
def echoLoop : Program KernelMemory Unit :=
  repeatWhile do
    wait
    echoReceived

/-- The end of `_start`: the messages after `init_idt`, the wait, the last message, and the loop. -/
def startEnd (reports : List Report) (last : Report) (buff : StrBuff) :
    Program KernelMemory Unit := do
  let buff ← reportAll buff reports
  waitUntil 3000
  let _ ← serialPrintf last.order buff last.format last.args
  echoLoop

/-! ## The gates -/

/-- The gates that `init_idt` stores for the timer and the keyboard lead to their handlers. -/
theorem enter_init (handlers : Handlers) (hne : handlers.timer ≠ handlers.keyboard)
    (s : IdtState) :
    enter handlers (initIdt handlers s) 0x20 = timerHandler ∧
      enter handlers (initIdt handlers s) 0x21 = keyboardHandler := by
  have hpresent : ∀ {vector handler}, handlers.ofVector vector = some handler →
      enter handlers (initIdt handlers s) vector = codeAt handlers handler := by
    intro vector handler hvector
    have hgate := gates_init handlers s vector handler hvector
    rw [enter, gatePresent, hgate.type, hgate.offset]
    rfl
  constructor
  · rw [hpresent rfl, codeAt, if_pos rfl]
  · rw [hpresent rfl, codeAt, if_neg (Ne.symm hne), if_pos rfl]

end SiStultum
