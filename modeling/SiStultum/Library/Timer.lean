import Mathlib.Tactic.Common

/-!
# The first channel of the 8254 timer

A control word says which bytes of the divisor follow. In two of its modes the channel then counts
the divisor down over and over again. The divisor is a binary number: decimal counting is not
modelled.
-/

namespace Timer

/-- Channel 0. -/
structure Channel where
  /-- The control word of the channel. -/
  control : BitVec 8
  divisor : BitVec 16
  /-- The low byte of a divisor of which the high byte has still to come. -/
  low : Option (BitVec 8)
  /-- The divisor is complete. -/
  counting : Bool
  deriving DecidableEq, Repr

namespace Channel

variable (channel : Channel)

/-- A control word: the upper bits select a channel, and bits 4 and 5 the bytes that follow. A word
with neither of these bits only latches the count. -/
def command (value : BitVec 8) : Channel :=
  if value &&& 0xc0 = 0 ∧ value &&& 0x30 ≠ 0 then
    { channel with control := value, low := none, counting := false }
  else channel

/-- A byte of the divisor. -/
def data (value : BitVec 8) : Channel :=
  if channel.control &&& 0x30 = 0x10 then
    { channel with divisor := 0#8 ++ value, counting := true }
  else if channel.control &&& 0x30 = 0x20 then
    { channel with divisor := value ++ 0#8, counting := true }
  else
    match channel.low with
    | none => { channel with low := some value, counting := false }
    | some low => { channel with divisor := value ++ low, low := none, counting := true }

/-- The count of a divisor: 0 stands for the largest one. -/
def count : Nat :=
  if channel.divisor = 0 then 0x10000 else channel.divisor.toNat

/-- The clock cycles from one interrupt to the next. Only the rate generator and the square wave
count over and over again, the two modes with this bit, and they cannot count fewer than two. -/
def period : Option Nat :=
  if channel.control.getLsbD 2 = true ∧ 2 ≤ channel.count then some channel.count else none

end Channel

/-- A channel that generates a square wave has every period from 2 to `2 ^ 16`. -/
theorem period_eq_some_iff {channel : Channel} (h : channel.control = 0x36) (cycles : Nat) :
    channel.period = some cycles ↔ 2 ≤ cycles ∧ channel.count = cycles := by
  have hmode : channel.control.getLsbD 2 = true := by
    rw [h]
    rfl
  rw [Channel.period]
  split
  · next hcounts =>
    rw [Option.some_inj]
    exact ⟨fun heq => ⟨heq ▸ hcounts.2, heq⟩, And.right⟩
  · next hnever =>
    refine iff_of_false (by simp) ?_
    rintro ⟨htwo, rfl⟩
    exact hnever ⟨hmode, htwo⟩

/-- A byte of a divisor of two bytes. -/
theorem data_both {channel : Channel} (h : channel.control = 0x36) (value : BitVec 8) :
    channel.data value =
      match channel.low with
      | none => { channel with low := some value, counting := false }
      | some low => { channel with divisor := value ++ low, low := none, counting := true } := by
  rw [Channel.data, h, if_neg (by decide), if_neg (by decide)]

/-- A new divisor, whatever the channel expected before. -/
theorem set_divisor (channel : Channel) (low high : BitVec 8) :
    ((channel.command 0x36).data low).data high = ⟨0x36, high ++ low, none, true⟩ := by
  have hcommand : channel.command 0x36 =
      { channel with control := 0x36, low := none, counting := false } := rfl
  have hlow : (channel.command 0x36).data low = ⟨0x36, channel.divisor, some low, false⟩ := by
    rw [hcommand, data_both rfl]
  rw [hlow, data_both rfl]

end Timer
