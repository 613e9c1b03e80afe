import Mathlib.Data.List.Basic
import Mathlib.Logic.Function.Iterate
import Mathlib.Tactic.Common

/-!
# The 16550 serial port

A port with a queue of bytes to send and a queue of bytes that have been received. `wire` is what
has been sent and `arrived` what has come in; `lost` and `overrun` are the bytes that found a queue
full. In loopback mode a byte that is written comes back at once.

`read` and `write` are the accesses to the eight registers, `transmit` and `receive` what happens
on the line.
-/

namespace Uart

/-- A serial port. -/
structure Port where
  /-- The interrupts that are enabled. -/
  ier : BitVec 8
  /-- The line control register. -/
  lcr : BitVec 8
  /-- The modem control register. -/
  mcr : BitVec 8
  divisor : BitVec 16
  /-- The queues have sixteen places. -/
  queued : Bool
  tx : List (BitVec 8)
  rx : List (BitVec 8)
  wire : List (BitVec 8)
  /-- The bytes to send that found no place. -/
  lost : List (BitVec 8)
  arrived : List (BitVec 8)
  /-- The received bytes that found no place. -/
  overrun : List (BitVec 8)
  /-- What comes back in loopback mode. -/
  echo : BitVec 8 → BitVec 8

namespace Port

variable (port : Port)

/-- The divisor is accessed in place of the first two registers. -/
def dlab : Bool :=
  port.lcr.getLsbD 7

def loopback : Bool :=
  port.mcr.getLsbD 4

/-- The places of a queue. -/
def depth : Nat :=
  if port.queued then 16 else 1

/-- The line status register: a byte has been received, and there is no byte to send. -/
def status : BitVec 8 :=
  (if port.rx.isEmpty then 0 else 0x01) ||| if port.tx.isEmpty then 0x60 else 0

/-- One more received byte. -/
def accept (value : BitVec 8) : Port :=
  if port.rx.length < port.depth then { port with rx := port.rx ++ [value] }
  else { port with overrun := port.overrun ++ [value] }

/-- One more byte to send. -/
def send (value : BitVec 8) : Port :=
  if port.loopback then port.accept (port.echo value)
  else if port.tx.length < port.depth then { port with tx := port.tx ++ [value] }
  else { port with lost := port.lost ++ [value] }

/-- A read of a register. -/
def read (register : Nat) : BitVec 8 × Port :=
  match register with
  | 0 =>
      if port.dlab then (port.divisor.setWidth 8, port)
      else (port.rx.headD 0, { port with rx := port.rx.tail })
  | 1 => (if port.dlab then (port.divisor >>> 8).setWidth 8 else port.ier, port)
  | 3 => (port.lcr, port)
  | 4 => (port.mcr, port)
  | 5 => (port.status, port)
  | _ => (0, port)

/-- A write to a register. -/
def write (register : Nat) (value : BitVec 8) : Port :=
  match register with
  | 0 =>
      if port.dlab then { port with divisor := (port.divisor >>> 8).setWidth 8 ++ value }
      else port.send value
  | 1 =>
      if port.dlab then { port with divisor := value ++ port.divisor.setWidth 8 }
      else { port with ier := value &&& 0x0f }
  | 2 =>
      { port with
        queued := value.getLsbD 0
        rx := if value.getLsbD 1 then [] else port.rx
        tx := if value.getLsbD 2 then [] else port.tx }
  | 3 => { port with lcr := value }
  | 4 => { port with mcr := value &&& 0x1f }
  | _ => port

/-- The line has taken a byte. -/
def transmit : Port :=
  match port.tx with
  | [] => port
  | value :: rest => { port with tx := rest, wire := port.wire ++ [value] }

/-- A byte arrives on the line, which is cut off in loopback mode. -/
def receive (value : BitVec 8) : Port :=
  if port.loopback then port
  else { port.accept value with arrived := port.arrived ++ [value] }

/-- What has been sent, and what will be. -/
def output : List (BitVec 8) :=
  port.wire ++ port.tx

end Port

variable {port : Port}

/-! ## Registers -/

/-- The bit of the line control that gives access to the divisor. -/
theorem dlab_of {value : BitVec 8} {set : Bool} (h : port.lcr = value)
    (hbit : value.getLsbD 7 = set) : port.dlab = set := by
  rw [Port.dlab, h, hbit]

/-- The bit of the modem control for the loopback mode. -/
theorem loopback_of {value : BitVec 8} {set : Bool} (h : port.mcr = value)
    (hbit : value.getLsbD 4 = set) : port.loopback = set := by
  rw [Port.loopback, h, hbit]

/-- The divisor is set between two writes to the line control register. -/
theorem set_divisor (port : Port) (low high control : BitVec 8) :
    (((port.write 3 0x80).write 0 low).write 1 high).write 3 control =
      { port with lcr := control, divisor := high ++ low } := by
  have hopen : ∀ divisor, ({ port with lcr := 0x80, divisor := divisor } : Port).dlab = true := by
    intro divisor
    show (0x80 : BitVec 8).getLsbD 7 = true
    rfl
  have hlow : (port.write 3 0x80).write 0 low =
      { port with lcr := 0x80, divisor := (port.divisor >>> 8).setWidth 8 ++ low } := by
    show ({ port with lcr := 0x80 } : Port).write 0 low = _
    rw [Port.write, if_pos (hopen _)]
  have hhigh : ({ port with lcr := 0x80, divisor := (port.divisor >>> 8).setWidth 8 ++ low } :
      Port).write 1 high = { port with lcr := 0x80, divisor := high ++ low } := by
    have hkept : ∀ first : BitVec 8, (first ++ low).setWidth 8 = low := by
      intro first
      rw [BitVec.setWidth_append, dif_pos (Nat.le_refl 8), BitVec.setWidth_eq]
    rw [Port.write, if_pos (hopen _)]
    simp only [hkept]
  rw [hlow, hhigh]
  rfl

/-- A byte for the data register is sent. -/
theorem write_data (h : port.dlab = false) (value : BitVec 8) :
    port.write 0 value = port.send value := by
  rw [Port.write, h, if_neg Bool.false_ne_true]

/-- The data register gives the oldest byte of the queue. -/
theorem read_data (h : port.dlab = false) :
    port.read 0 = (port.rx.headD 0, { port with rx := port.rx.tail }) := by
  rw [Port.read, h, if_neg Bool.false_ne_true]

/-- In loopback mode a byte is received that finds a place. -/
theorem send_loopback (h : port.loopback = true) (hplace : port.rx.length < port.depth)
    (value : BitVec 8) : port.send value = { port with rx := port.rx ++ [port.echo value] } := by
  rw [Port.send, if_pos h, Port.accept, if_pos hplace]

/-! ## The line status -/

/-- The transmitter is empty. -/
theorem status_empty : port.status &&& 0x20 = 0 ↔ port.tx ≠ [] := by
  rw [Port.status]
  cases port.tx <;> cases port.rx <;> simp

/-- A byte has been received. -/
theorem status_ready : port.status &&& 1 = 0 ↔ port.rx = [] := by
  rw [Port.status]
  cases port.tx <;> cases port.rx <;> simp

/-- A byte on the line was the next one to be sent. -/
theorem output_transmit (port : Port) : port.transmit.output = port.output := by
  unfold Port.transmit Port.output
  split
  · rfl
  · next value rest htx =>
      show port.wire ++ [value] ++ rest = port.wire ++ port.tx
      rw [htx, List.append_assoc]
      rfl

/-- The line takes all bytes that are to be sent. -/
theorem transmit_all (port : Port) : (Port.transmit^[port.tx.length] port).tx = [] := by
  induction htx : port.tx generalizing port with
  | nil => exact htx
  | cons value rest ih =>
      have hnext : port.transmit = { port with tx := rest, wire := port.wire ++ [value] } := by
        rw [Port.transmit, htx]
      rw [List.length_cons, Function.iterate_succ_apply, hnext]
      exact ih _ rfl

/-- A byte that finds a place. -/
theorem send_place (hloop : port.loopback = false) (hplace : port.tx.length < port.depth)
    (value : BitVec 8) : port.send value = { port with tx := port.tx ++ [value] } := by
  rw [Port.send, hloop, if_neg Bool.false_ne_true, if_pos hplace]

/-- A byte that is the only one to be sent goes to the line. -/
theorem transmit_send (hloop : port.loopback = false) (htx : port.tx = []) (value : BitVec 8) :
    (port.send value).transmit = { port with wire := port.wire ++ [value] } := by
  have hplace : port.tx.length < port.depth := by
    rw [htx, Port.depth]
    split <;> decide
  rw [send_place hloop hplace]
  cases port
  cases htx
  rfl

/-- A byte that finds a place is sent after those before it. -/
theorem output_send (hloop : port.loopback = false) (hplace : port.tx.length < port.depth)
    (value : BitVec 8) : (port.send value).output = port.output ++ [value] := by
  rw [send_place hloop hplace]
  exact (List.append_assoc _ _ _).symm

end Uart
