import Mathlib.Data.Fin.Basic
import Mathlib.Tactic.Common

/-!
# The 8259 interrupt controller

A chip collects the requests of eight lines, the line with the smallest number first. The processor
acknowledges the request that the chip presents, which puts its line in service, and ends the
interrupt with a command. `command` and `data` are the writes to the two ports of a chip, in its
edge-triggered, fully nested mode; commands that rotate the priorities are not covered. Spurious
interrupts are not modelled: a request stays until it is acknowledged.

`eoi_acknowledge` says that the end of an interrupt is the end of the interrupt that was
acknowledged last.
-/

namespace Pic

/-- The next word that the chip expects on its data port. -/
inductive Phase where
  | ready
  | icw2
  | icw3
  | icw4
  deriving DecidableEq, Repr

/-- One chip. -/
structure Chip where
  /-- The lines with a request. -/
  irr : BitVec 8
  /-- The lines in service. -/
  isr : BitVec 8
  /-- The masked lines. -/
  imr : BitVec 8
  /-- The vector of line 0. -/
  base : BitVec 8
  cascade : BitVec 8
  /-- An acknowledged interrupt is not in service. -/
  autoEoi : Bool
  phase : Phase
  /-- There is no other chip. -/
  single : Bool
  /-- The initialisation has a fourth word. -/
  fourth : Bool
  deriving DecidableEq, Repr

/-- The set bit with the smallest number. -/
def lowest (bits : BitVec 8) : Option (Fin 8) :=
  (List.finRange 8).find? fun line => bits.getLsbD line

/-- A register without the bit of a line. -/
def without (bits : BitVec 8) (line : Fin 8) : BitVec 8 :=
  bits &&& ~~~(1#8 <<< line.val)

/-- A register with the bit of a line. -/
def withLine (bits : BitVec 8) (line : Fin 8) : BitVec 8 :=
  bits ||| 1#8 <<< line.val

namespace Chip

variable (chip : Chip)

/-- The end of the interrupt with the highest priority. -/
def endOfInterrupt : Chip :=
  match lowest chip.isr with
  | some line => { chip with isr := without chip.isr line }
  | none => chip

/-- A write to the command port: the first word of an initialisation, the end of an interrupt, or a
word that does not concern the lines. -/
def command (value : BitVec 8) : Chip :=
  if value.getLsbD 4 then
    { chip with
      irr := 0
      isr := 0
      imr := 0
      autoEoi := false
      phase := .icw2
      single := value.getLsbD 1
      fourth := value.getLsbD 0 }
  else if value.getLsbD 3 then chip
  else if value &&& 0xe0 = 0x20 then chip.endOfInterrupt
  else if value &&& 0xe0 = 0x60 then
    { chip with isr := without chip.isr (Fin.ofNat 8 (value &&& 7).toNat) }
  else chip

/-- A write to the data port: the mask, or the next word of an initialisation. -/
def data (value : BitVec 8) : Chip :=
  match chip.phase with
  | .ready => { chip with imr := value }
  | .icw2 =>
      { chip with
        base := value &&& 0xf8
        phase := if chip.single then if chip.fourth then .icw4 else .ready else .icw3 }
  | .icw3 => { chip with cascade := value, phase := if chip.fourth then .icw4 else .ready }
  | .icw4 => { chip with autoEoi := value.getLsbD 1, phase := .ready }

/-- A device requests an interrupt. -/
def raise (line : Fin 8) : Chip :=
  { chip with irr := withLine chip.irr line }

/-- The line for which the chip presents a request: no line of the same or of higher priority is in
service. -/
def request : Option (Fin 8) :=
  match lowest (chip.irr &&& ~~~chip.imr) with
  | some line =>
      if chip.phase = .ready ∧ ∀ other : Fin 8, other ≤ line → chip.isr.getLsbD other = false then
        some line
      else none
  | none => none

/-- The processor acknowledges the request of a line. -/
def acknowledge (line : Fin 8) : Chip :=
  { chip with
    irr := without chip.irr line
    isr := if chip.autoEoi then chip.isr else withLine chip.isr line }

/-- The vector of a line. -/
def vector (line : Fin 8) : BitVec 8 :=
  chip.base ||| BitVec.ofNat 8 line.val

end Chip

/-- Two chips, the second one on line 2 of the first. -/
structure Pair where
  master : Chip
  slave : Chip
  deriving DecidableEq, Repr

namespace Pair

variable (pair : Pair)

/-- A request of one of the sixteen lines. -/
def raise (line : Fin 16) : Pair :=
  if h : line.val < 8 then { pair with master := pair.master.raise ⟨line.val, h⟩ }
  else { pair with slave := pair.slave.raise ⟨line.val - 8, by omega⟩ }

/-- The first chip, with a request on line 2 when the second one presents one. -/
def front : Chip :=
  if pair.slave.request.isSome then pair.master.raise 2 else pair.master

/-- The processor acknowledges a line of the first chip, and a request of the second one with
line 2: the vector, and the chips after it. Line 2 without a request of the second chip, for which
that chip would give a spurious vector, is one more line of the first here. -/
def acknowledge (line : Fin 8) : BitVec 8 × Pair :=
  match pair.slave.request with
  | some inner =>
      if line = 2 then
        (pair.slave.vector inner,
          { master := pair.front.acknowledge 2, slave := pair.slave.acknowledge inner })
      else (pair.front.vector line, { pair with master := pair.front.acknowledge line })
  | none => (pair.front.vector line, { pair with master := pair.front.acknowledge line })

/-- The interrupt that is presented. -/
def accept : Option (BitVec 8 × Pair) :=
  pair.front.request.map pair.acknowledge

/-- The line is masked at its chip. -/
def masked (line : Fin 16) : Bool :=
  if line.val < 8 then pair.master.imr.getLsbD line.val else pair.slave.imr.getLsbD (line.val - 8)

/-- The vector of one of the sixteen lines. -/
def vector (line : Fin 16) : BitVec 8 :=
  if line.val < 8 then pair.master.base ||| BitVec.ofNat 8 line.val
  else pair.slave.base ||| BitVec.ofNat 8 (line.val - 8)

/-- The request that is presented comes from the second chip. -/
def Cascaded : Prop :=
  pair.front.request = some 2 ∧ pair.slave.request.isSome = true

end Pair

/-! ## Registers -/

/-- The register with one line. -/
theorem get_line (line other : Fin 8) :
    (1#8 <<< line.val).getLsbD other = decide (other = line) := by
  have hother := other.isLt
  rw [BitVec.getLsbD_shiftLeft, BitVec.getLsbD_one]
  by_cases hsame : other = line
  · subst hsame
    simp
  · have hne : other.val ≠ line.val := fun heq => hsame (Fin.ext heq)
    by_cases hlt : other.val < line.val
    · simp [hsame, hlt]
    · have hfar : other.val - line.val ≠ 0 := by omega
      simp [hsame, hfar]

/-- All other lines are kept. -/
theorem get_without (bits : BitVec 8) (line other : Fin 8) :
    (without bits line).getLsbD other = (bits.getLsbD other && decide (other ≠ line)) := by
  have hother := other.isLt
  rw [without, BitVec.getLsbD_and, BitVec.getLsbD_not, get_line]
  simp [hother]

/-- All other lines are kept. -/
theorem get_with_line (bits : BitVec 8) (line other : Fin 8) :
    (withLine bits line).getLsbD other = (bits.getLsbD other || decide (other = line)) := by
  rw [withLine, BitVec.getLsbD_or, get_line]

/-- The first set bit. -/
theorem lowest_eq_some_iff {bits : BitVec 8} {line : Fin 8} :
    lowest bits = some line ↔
      bits.getLsbD line = true ∧ ∀ other < line, bits.getLsbD other = false := by
  rw [lowest, List.find?_eq_some_iff_getElem]
  constructor
  · rintro ⟨hset, i, hi, heq, hbefore⟩
    rw [List.getElem_finRange] at heq
    subst heq
    refine ⟨hset, fun other hother => ?_⟩
    have hclear := hbefore other.val hother
    rw [List.getElem_finRange] at hclear
    simpa using hclear
  · intro ⟨hset, hbefore⟩
    refine ⟨hset, line.val, by simp, by simp, fun j hj => ?_⟩
    have hclear := hbefore ⟨j, by omega⟩ hj
    simpa using hclear

/-- There is no lowest line exactly when no line is set. -/
theorem lowest_eq_none_iff {bits : BitVec 8} : lowest bits = none ↔ bits = 0 := by
  rw [lowest, List.find?_eq_none]
  constructor
  · intro hclear
    apply BitVec.eq_of_getLsbD_eq
    intro i hi
    have hbit := hclear ⟨i, hi⟩ (List.mem_finRange _)
    simpa using hbit
  · rintro rfl line -
    simp

/-- Two registers with the same bits are equal. -/
theorem eq_of_lines {bits other : BitVec 8}
    (h : ∀ line : Fin 8, bits.getLsbD line = other.getLsbD line) : bits = other :=
  BitVec.eq_of_getLsbD_eq fun i hi => h ⟨i, hi⟩

/-! ## One interrupt -/

variable {chip : Chip} {line : Fin 8}

/-- A write to the data port outside an initialisation. -/
theorem data_ready (h : chip.phase = .ready) (value : BitVec 8) :
    chip.data value = { chip with imr := value } := by
  rw [Chip.data, h]

/-- What a presented request means. -/
theorem request_eq_some_iff : chip.request = some line ↔
    chip.phase = .ready ∧ chip.irr.getLsbD line = true ∧ chip.imr.getLsbD line = false ∧
      (∀ other < line, (chip.irr &&& ~~~chip.imr).getLsbD other = false) ∧
      ∀ other : Fin 8, other ≤ line → chip.isr.getLsbD other = false := by
  have hline := line.isLt
  have hpending : (chip.irr &&& ~~~chip.imr).getLsbD line =
      (chip.irr.getLsbD line && !chip.imr.getLsbD line) := by
    rw [BitVec.getLsbD_and, BitVec.getLsbD_not]
    simp [hline]
  rw [Chip.request]
  constructor
  · intro h
    split at h
    · next first hfirst =>
        split at h
        · next hready =>
            obtain rfl := Option.some.inj h
            obtain ⟨hset, hbefore⟩ := lowest_eq_some_iff.mp hfirst
            rw [hpending, Bool.and_eq_true, Bool.not_eq_true'] at hset
            exact ⟨hready.1, hset.1, hset.2, hbefore, hready.2⟩
        · cases h
    · cases h
  · intro ⟨hphase, hirr, himr, hbefore, hservice⟩
    have hfirst : lowest (chip.irr &&& ~~~chip.imr) = some line := by
      refine lowest_eq_some_iff.mpr ⟨?_, hbefore⟩
      rw [hpending, hirr, himr]
      rfl
    rw [hfirst]
    exact if_pos ⟨hphase, hservice⟩

/-- The end of an interrupt ends the one that was acknowledged last. -/
theorem eoi_acknowledge (hrequest : chip.request = some line) (hauto : chip.autoEoi = false) :
    (chip.acknowledge line).endOfInterrupt.isr = chip.isr := by
  obtain ⟨-, -, -, -, hservice⟩ := request_eq_some_iff.mp hrequest
  have hisr : (chip.acknowledge line).isr = withLine chip.isr line := by
    rw [Chip.acknowledge, hauto]
    rfl
  -- the line has the highest priority of those in service
  have hfirst : lowest (chip.acknowledge line).isr = some line := by
    rw [hisr, lowest_eq_some_iff]
    refine ⟨?_, fun other hother => ?_⟩
    · rw [get_with_line]
      simp
    · rw [get_with_line, hservice other (Fin.le_of_lt hother)]
      simpa using Fin.ne_of_lt hother
  rw [Chip.endOfInterrupt, hfirst]
  show without (chip.acknowledge line).isr line = chip.isr
  rw [hisr]
  refine eq_of_lines fun other => ?_
  rw [get_without, get_with_line]
  by_cases hsame : other = line
  · subst hsame
    rw [hservice other (Fin.le_refl other)]
    simp
  · simp [hsame]

/-- A chip changes with the end of an interrupt when one is in service. -/
theorem end_of_interrupt_eq_iff : chip.endOfInterrupt.isr = chip.isr ↔ chip.isr = 0 := by
  rw [Chip.endOfInterrupt]
  cases hfirst : lowest chip.isr with
  | none => simpa using lowest_eq_none_iff.mp hfirst
  | some line =>
      obtain ⟨hset, -⟩ := lowest_eq_some_iff.mp hfirst
      constructor
      · intro hsame
        have hclear : (without chip.isr line).getLsbD line = chip.isr.getLsbD line :=
          congrArg (fun bits : BitVec 8 => bits.getLsbD line) hsame
        rw [get_without, hset] at hclear
        simp at hclear
      · intro hzero
        rw [hzero] at hset
        simp at hset

/-- An acknowledged line is in service. -/
theorem acknowledge_isr_ne (hrequest : chip.request = some line) (hauto : chip.autoEoi = false) :
    (chip.acknowledge line).isr ≠ chip.isr := by
  obtain ⟨-, -, -, -, hservice⟩ := request_eq_some_iff.mp hrequest
  intro hsame
  have hset : (withLine chip.isr line).getLsbD line = chip.isr.getLsbD line := by
    rw [Chip.acknowledge, hauto] at hsame
    exact congrArg (fun bits : BitVec 8 => bits.getLsbD line) hsame
  rw [get_with_line, hservice line (Fin.le_refl line)] at hset
  simp at hset

/-! ## Two chips -/

/-- The chip expects no word of an initialisation, and has no request and no line in service. -/
structure Chip.Idle (chip : Chip) : Prop where
  phase : chip.phase = .ready
  irr : chip.irr = 0
  isr : chip.isr = 0

/-- A chip without a request presents none. -/
theorem Chip.Idle.request (h : chip.Idle) : chip.request = none := by
  rw [Chip.request, h.irr, BitVec.ofNat_eq_ofNat, BitVec.zero_and]
  rfl

/-- The only request of a chip is presented, unless its line is masked. -/
theorem Chip.Idle.request_raise (h : chip.Idle) (line : Fin 8)
    (himr : chip.imr.getLsbD line = false) :
    (chip.raise line).request = some line := by
  refine request_eq_some_iff.mpr ⟨h.phase, ?_, himr, fun other hother => ?_, fun other _ => ?_⟩
  · rw [Chip.raise, get_with_line]
    simp
  · rw [BitVec.getLsbD_and, Chip.raise, get_with_line, h.irr]
    simp [Fin.ne_of_lt hother]
  · rw [Chip.raise, h.isr]
    exact BitVec.getLsbD_zero

/-- Two chips without a request deliver nothing. -/
theorem accept_idle {pair : Pair} (hmaster : pair.master.Idle) (hslave : pair.slave.Idle) :
    pair.accept = none := by
  have hfront : pair.front = pair.master := by
    rw [Pair.front, hslave.request]
    rfl
  rw [Pair.accept, hfront, hmaster.request]
  rfl

/-- The request of a line of two idle chips is presented under the vector of the line. -/
theorem accept_raise {pair : Pair} (hmaster : pair.master.Idle) (hslave : pair.slave.Idle)
    {line : Fin 16} (hline : pair.masked line = false)
    (hcascade : 8 ≤ line.val → pair.masked 2 = false) :
    (pair.raise line).accept.map Prod.fst = some (pair.vector line) := by
  by_cases hlt : line.val < 8
  · have hmask : pair.master.imr.getLsbD line.val = false := by
      rw [Pair.masked, if_pos hlt] at hline
      exact hline
    have hrequest := hmaster.request_raise ⟨line.val, hlt⟩ hmask
    have hfront : (pair.raise line).front = pair.master.raise ⟨line.val, hlt⟩ := by
      rw [Pair.raise, dif_pos hlt, Pair.front, hslave.request]
      rfl
    have hnone : (pair.raise line).slave.request = none := by
      rw [Pair.raise, dif_pos hlt]
      exact hslave.request
    rw [Pair.accept, hfront, hrequest, Option.map_some, Option.map_some, Pair.acknowledge, hnone,
      hfront, Pair.vector, if_pos hlt]
    rfl
  · have hsmall : line.val - 8 < 8 := by omega
    have hmask : pair.slave.imr.getLsbD (line.val - 8) = false := by
      rw [Pair.masked, if_neg hlt] at hline
      exact hline
    have hrequest := hslave.request_raise ⟨line.val - 8, hsmall⟩ hmask
    have hpresented : (pair.raise line).slave.request = some ⟨line.val - 8, hsmall⟩ := by
      rw [Pair.raise, dif_neg hlt]
      exact hrequest
    have hfront : (pair.raise line).front = pair.master.raise 2 := by
      rw [Pair.front, hpresented, Pair.raise, dif_neg hlt]
      rfl
    have htwo := hmaster.request_raise 2 (hcascade (by omega))
    rw [Pair.accept, hfront, htwo, Option.map_some, Option.map_some, Pair.acknowledge, hpresented,
      Pair.vector, if_neg hlt, Pair.raise, dif_neg hlt]
    rfl

/-- What the processor takes. -/
theorem accept_cases {pair after : Pair} {vector : BitVec 8}
    (h : pair.accept = some (vector, after)) :
    (pair.Cascaded ∧ ∃ line, pair.slave.request = some line ∧ vector = pair.slave.vector line ∧
        after = ⟨pair.front.acknowledge 2, pair.slave.acknowledge line⟩) ∨
      (¬ pair.Cascaded ∧ ∃ line, pair.front.request = some line ∧
        vector = pair.front.vector line ∧
        after = { pair with master := pair.front.acknowledge line }) := by
  rw [Pair.accept, Option.map_eq_some_iff] at h
  obtain ⟨line, hfront, h⟩ := h
  rw [Pair.acknowledge] at h
  split at h
  · next inner hslave =>
      split at h
      · next htwo =>
          obtain ⟨rfl, rfl⟩ := Prod.mk.inj h
          subst htwo
          exact .inl ⟨⟨hfront, by rw [hslave]; rfl⟩, inner, hslave, rfl, rfl⟩
      · next hother =>
          obtain ⟨rfl, rfl⟩ := Prod.mk.inj h
          refine .inr ⟨fun hcascaded => hother ?_, line, hfront, rfl, rfl⟩
          exact Option.some.inj (hfront.symm.trans hcascaded.1)
  · next hslave =>
      obtain ⟨rfl, rfl⟩ := Prod.mk.inj h
      refine .inr ⟨fun hcascaded => ?_, line, hfront, rfl, rfl⟩
      have hsome := hcascaded.2
      rw [hslave] at hsome
      cases hsome

end Pic
