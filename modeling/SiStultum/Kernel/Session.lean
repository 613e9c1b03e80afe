import Mathlib.Data.List.TakeWhile
import SiStultum.Devices.Stamps
import SiStultum.Kernel.Handlers

/-!
# What the kernel says

`transcript` is the text of the end of `_start`, as a function of the values of `ms_count` and of
the bytes that it has read; each message has its own order of the two reads for its stamp.
`Script.protocol` is the protocol of the main program: it writes the transcript, and waits when all
of it is written. `serviceProtocol` is the protocol of the handlers. `start_end_meets`,
`timer_meets` and `keyboard_meets` say that the programs keep to them.
-/

namespace SiStultum

open PortPrograms PortPrograms.Program

/-- The messages of the end of `_start`, the last one after the wait. -/
structure Script where
  reports : List Report
  last : Report

/-- The transmitter is empty, and a byte has been received: what a line status says. -/
def transmitterEmpty (status : BitVec 8) : Bool :=
  status &&& 0x20 != 0

def dataReady (status : BitVec 8) : Bool :=
  status &&& 1 != 0

/-! ## The transcript -/

/-- What a call of `serial_printf` writes, for the two values of `ms_count` that it reads. -/
def Report.line (report : Report) (first second : BitVec 64) : List Char8 :=
  report.order.stamp first second ++ report.text

/-- The text after the messages: the last one, stamped after the wait, and the echo. -/
def closing (last : Report) (clock : List (BitVec 64)) (heard : List Char8) : List Char8 :=
  match clock.dropWhile (· < 3000) with
  | _ :: first :: second :: _ => last.line first second ++ heard
  | _ => []

/-- The text that belongs to the values of `ms_count` and to the bytes that have been read. -/
def transcript (last : Report) : List Report → List (BitVec 64) → List Char8 → List Char8
  | [], clock, heard => closing last clock heard
  | report :: reports, first :: second :: clock, heard =>
      report.line first second ++ transcript last reports clock heard
  | _, _, _ => []

/-- The first value that is not below the limit stays the first one. -/
theorem drop_while_append {clock : List (BitVec 64)} {time : BitVec 64} {rest : List (BitVec 64)}
    (h : clock.dropWhile (· < 3000) = time :: rest) (more : List (BitVec 64)) :
    (clock ++ more).dropWhile (· < 3000) = time :: (rest ++ more) := by
  rw [List.dropWhile_append, h]
  rfl

/-- More is read: the text goes on. -/
theorem closing_prefix (last : Report) (clock more : List (BitVec 64)) (heard later : List Char8) :
    closing last clock heard <+: closing last (clock ++ more) (heard ++ later) := by
  rw [closing]
  split
  · next time first second rest hdrop =>
      rw [closing, drop_while_append hdrop]
      show last.line first second ++ heard <+: last.line first second ++ (heard ++ later)
      rw [← List.append_assoc]
      exact List.prefix_append _ _
  · exact List.nil_prefix

/-- So does the text of the messages. -/
theorem transcript_prefix (last : Report) (reports : List Report) (clock more : List (BitVec 64))
    (heard later : List Char8) :
    transcript last reports clock heard <+:
      transcript last reports (clock ++ more) (heard ++ later) := by
  induction reports generalizing clock with
  | nil => exact closing_prefix last clock more heard later
  | cons report reports ih =>
      match clock with
      | [] => exact List.nil_prefix
      | [_] => exact List.nil_prefix
      | first :: second :: clock =>
          show report.line first second ++ transcript last reports clock heard <+:
            report.line first second ++
              transcript last reports (clock ++ more) (heard ++ later)
          exact (List.prefix_append_right_inj _).mpr (ih clock)

/-- Values below the limit of the wait add nothing. -/
theorem closing_waiting (last : Report) {clock : List (BitVec 64)} (heard : List Char8)
    (h : ∀ time ∈ clock, time < 3000) : closing last clock heard = [] := by
  have hnone : clock.dropWhile (· < 3000) = [] := by
    rw [List.dropWhile_eq_nil_iff]
    intro time hmem
    exact decide_eq_true (h time hmem)
  rw [closing, hnone]

/-- The text after the wait: the last message, and the bytes that have been heard. -/
theorem closing_waited (last : Report) {clock : List (BitVec 64)} {time : BitVec 64}
    (first second : BitVec 64) (more : List (BitVec 64)) (heard : List Char8)
    (h : ∀ time ∈ clock, time < 3000) (htime : ¬ time < 3000) :
    closing last (clock ++ time :: first :: second :: more) heard =
      last.line first second ++ heard := by
  have hall : ∀ time ∈ clock, decide (time < 3000) = true := fun time hmem =>
    decide_eq_true (h time hmem)
  rw [closing, List.dropWhile_append_of_pos hall, List.dropWhile_cons_of_neg (by simpa using htime)]

/-- What the main program has read of `ms_count` when it waits for an interrupt: two values for
each message, and then values below the limit of the wait, the last one of which lets it wait on, or
those with which the wait and the last message end. -/
inductive AtRest (script : Script) : List (BitVec 64) → Prop where
  | waiting {stamps waited : List (BitVec 64)} (hstamps : stamps.length = 2 * script.reports.length)
      (hsome : waited ≠ []) (hwaited : ∀ time ∈ waited, time < 3000) :
      AtRest script (stamps ++ waited)
  | echoing {stamps waited : List (BitVec 64)} {time : BitVec 64} (first second : BitVec 64)
      (hstamps : stamps.length = 2 * script.reports.length)
      (hwaited : ∀ time ∈ waited, time < 3000) (htime : ¬ time < 3000) :
      AtRest script (stamps ++ waited ++ [time, first, second])

/-! ## The main program -/

/-- What the main program has read and written, and what it knows of the line. -/
structure Spoken where
  /-- The values of `ms_count`. -/
  clock : List (BitVec 64)
  /-- The bytes from the line. -/
  heard : List Char8
  /-- The bytes to the line. -/
  said : List Char8
  /-- The transmitter was empty, and nothing has been written since. -/
  empty : Bool
  /-- A byte was there, and nothing has been read since. -/
  ready : Bool

def Spoken.next (spoken : Spoken) : Access KernelMemory → Spoken
  | .read port value =>
      if port = com1Port + 5 then
        { spoken with empty := transmitterEmpty value, ready := dataReady value }
      else { spoken with heard := spoken.heard ++ [value], ready := false }
  | .write _ value => { spoken with said := spoken.said ++ [value], empty := false }
  | .load memory => { spoken with clock := spoken.clock ++ [memory.msCount] }
  | _ => spoken

variable (script : Script)

/-- The text that is due so far. -/
def Script.text (spoken : Spoken) : List Char8 :=
  transcript script.last script.reports spoken.clock spoken.heard

/-- The main program writes the transcript, to an empty transmitter. -/
def Script.protocol : Protocol KernelMemory Spoken where
  next := Spoken.next
  allowed spoken
    | .read port _ => port = com1Port + 5 ∨ port = com1Port ∧ spoken.ready = true
    | .write port value =>
        port = com1Port ∧ spoken.empty = true ∧ spoken.said ++ [value] <+: script.text spoken
    | .load _ => True
    | _ => False
  waits spoken := spoken.said = script.text spoken ∧ AtRest script spoken.clock
  relies spoken port value :=
    port = com1Port + 5 → spoken.ready = true → dataReady value = true
  awaited port value := port = com1Port + 5 → transmitterEmpty value = true

/-- The text that the main program may write with what it has read. -/
structure Due (clock : List (BitVec 64)) (heard said text : List Char8) (spoken : Spoken) :
    Prop where
  clock : spoken.clock = clock
  heard : spoken.heard = heard
  said : spoken.said ++ text = said

variable {script}

/-- The text that is due, by what has been read. -/
theorem Due.text {clock : List (BitVec 64)} {heard said text : List Char8} {spoken : Spoken}
    (h : Due clock heard said text spoken) :
    script.text spoken = transcript script.last script.reports clock heard := by
  rw [Script.text, h.clock, h.heard]

/-- The main program speaks. -/
theorem script_speaks {clock : List (BitVec 64)} {heard said : List Char8}
    (hsaid : said <+: transcript script.last script.reports clock heard) :
    Speaks script.protocol (Due clock heard said) where
  awaits status h := bne_iff_ne.mp (h rfl)
  poll status h := ⟨.inl rfl, h.clock, h.heard, h.said⟩
  write := by
    intro c text spoken status h hempty
    have hnext : spoken.said ++ [c] ++ text = said := by
      rw [List.append_assoc, List.singleton_append]
      exact h.said
    refine ⟨⟨rfl, bne_iff_ne.mpr hempty, ?_⟩, h.clock, h.heard, hnext⟩
    show spoken.said ++ [c] <+: script.text spoken
    rw [h.text]
    refine List.IsPrefix.trans ?_ hsaid
    rw [← hnext]
    exact List.prefix_append _ text

/-- A report prints its text, whatever the buffer holds. -/
theorem Report.proto_print (report : Report) (buff : StrBuff) :
    ∃ after, protoPrint buff report.format report.args = .ok after ∧ after.out = report.text := by
  obtain ⟨cnt, hprints⟩ := report.prints
  have hprint := proto_print_pieces report.pieces [] buff report.args
  rw [hprints] at hprint
  obtain ⟨after, hafter⟩ := hprint
  exact ⟨_, hafter, rfl⟩

variable {spoken : Spoken}

/-- `serial_printf` reads the time twice and writes a stamp and a text. -/
theorem serial_printf_meets (report : Report) (buff : StrBuff)
    (hdue : ∀ first second, spoken.said ++ report.line first second <+:
      transcript script.last script.reports (spoken.clock ++ [first, second]) spoken.heard) :
    Meets script.protocol (serialPrintf report.order buff report.format report.args)
      (fun _ after => ∃ first second, Due (spoken.clock ++ [first, second]) spoken.heard
        (spoken.said ++ report.line first second) [] after) spoken := by
  intro first
  refine ⟨trivial, fun second => ⟨trivial, ?_⟩⟩
  have hspeaks := script_speaks (hdue first.msCount second.msCount)
  obtain ⟨stamp, hstamp, hout⟩ := proto_print_stamp buff
    (report.order.seconds first.msCount second.msCount)
    (report.order.millis first.msCount second.msCount)
  show Meets _ ((protoPrintKputc buff stampFormat (stampArgs
    (report.order.seconds first.msCount second.msCount)
    (report.order.millis first.msCount second.msCount))).bind _) _ _
  have hstart : Due (spoken.clock ++ [first.msCount, second.msCount]) spoken.heard
      (spoken.said ++ report.line first.msCount second.msCount)
      (stamp.out ++ report.text) ((spoken.next (.load first)).next (.load second)) := by
    rw [hout]
    exact ⟨List.append_assoc _ _ _, rfl, rfl⟩
  refine Meets.bind ((hspeaks.proto_print hstamp hstart).mono ?_)
  intro buff after hafter
  obtain ⟨printed, hprinted, htext⟩ := report.proto_print buff
  have hrest : Due (spoken.clock ++ [first.msCount, second.msCount]) spoken.heard
      (spoken.said ++ report.line first.msCount second.msCount) (printed.out ++ []) after := by
    rw [htext, List.append_nil]
    exact hafter
  exact (hspeaks.proto_print hprinted hrest).mono fun _ final hfinal => ⟨_, _, hfinal⟩

/-- All that is due is written, and the rest of the transcript is that of `reports`. -/
structure Reporting (script : Script) (reports : List Report) (spoken : Spoken) : Prop where
  heard : spoken.heard = []
  stamps : spoken.clock.length + 2 * reports.length = 2 * script.reports.length
  rest : ∀ more heard, transcript script.last script.reports (spoken.clock ++ more) heard =
    spoken.said ++ transcript script.last reports more heard

/-- The messages before the wait. -/
theorem report_all_meets (buff : StrBuff) {reports : List Report}
    (h : Reporting script reports spoken) :
    Meets script.protocol (reportAll buff reports)
      (fun _ after => Reporting script [] after) spoken := by
  induction reports generalizing buff spoken with
  | nil => exact h
  | cons report reports ih =>
      have hdue : ∀ first second, spoken.said ++ report.line first second <+:
          transcript script.last script.reports (spoken.clock ++ [first, second]) spoken.heard := by
        intro first second
        rw [h.rest]
        refine (List.prefix_append_right_inj _).mpr ?_
        exact List.prefix_append _ (transcript script.last reports [] spoken.heard)
      refine Meets.bind ((serial_printf_meets report buff hdue).mono ?_)
      rintro buff after ⟨first, second, hafter⟩
      have hstamps := h.stamps
      refine ih buff ⟨hafter.heard.trans h.heard, ?_, fun more heard => ?_⟩
      · rw [hafter.clock, List.length_append, List.length_cons, List.length_singleton]
        rw [List.length_cons] at hstamps
        omega
      have hsaid : after.said = spoken.said ++ report.line first second := by
        rw [← hafter.said, List.append_nil]
      rw [hafter.clock, List.append_assoc, h.rest, hsaid, List.append_assoc]
      rfl

/-- The wait is over: after two more values of `ms_count` the last message is due. -/
structure Waited (script : Script) (spoken : Spoken) : Prop where
  heard : spoken.heard = []
  clock : ∀ first second, AtRest script (spoken.clock ++ [first, second])
  rest : ∀ first second more heard,
    transcript script.last script.reports (spoken.clock ++ first :: second :: more) heard =
      spoken.said ++ (script.last.line first second ++ heard)

/-- The wait. -/
theorem wait_until_meets (h : Reporting script [] spoken) :
    Meets script.protocol (waitUntil 3000) (fun _ after => Waited script after) spoken := by
  refine Meets.loop (fun after => ∃ waited, (∀ time ∈ waited, time < 3000) ∧
    after = { spoken with clock := spoken.clock ++ waited })
    ⟨[], by simp, by rw [List.append_nil]⟩ ?_ ?_
  case refine_2 =>
    rintro after - memory
    show Stops _ (if memory.msCount < 3000 then _ else _ : Program KernelMemory Bool) _ _
    split
    · trivial
    · rfl
  rintro after ⟨waited, hwaited, rfl⟩ memory
  refine ⟨trivial, ?_⟩
  by_cases hless : memory.msCount < 3000
  · have hall : ∀ time ∈ waited ++ [memory.msCount], time < 3000 := by
      intro time hmem
      rcases List.mem_append.mp hmem with hold | hnew
      · exact hwaited time hold
      · rw [List.mem_singleton.mp hnew]
        exact hless
    show Meets _ (if memory.msCount < 3000 then _ else _ : Program KernelMemory Bool) _ _
    rw [if_pos hless]
    refine ⟨?_, waited ++ [memory.msCount], hall, ?_⟩
    · refine ⟨?_, ?_⟩
      case refine_2 =>
        show AtRest script (spoken.clock ++ waited ++ [memory.msCount])
        rw [List.append_assoc]
        exact .waiting h.stamps (by simp) hall
      show spoken.said = transcript script.last script.reports
        (spoken.clock ++ waited ++ [memory.msCount]) spoken.heard
      rw [List.append_assoc, h.rest]
      show spoken.said =
        spoken.said ++ closing script.last (waited ++ [memory.msCount]) spoken.heard
      rw [closing_waiting script.last spoken.heard hall, List.append_nil]
    · show { spoken with clock := spoken.clock ++ waited ++ [memory.msCount] } = _
      rw [List.append_assoc]
  · show Meets _ (if memory.msCount < 3000 then _ else _ : Program KernelMemory Bool) _ _
    rw [if_neg hless]
    refine ⟨h.heard, fun first second => ?_, fun first second more heard => ?_⟩
    · show AtRest script (spoken.clock ++ waited ++ [memory.msCount] ++ [first, second])
      rw [List.append_assoc]
      exact .echoing first second h.stamps hwaited hless
    show transcript script.last script.reports
      (spoken.clock ++ waited ++ [memory.msCount] ++ first :: second :: more) heard = _
    rw [List.append_assoc, List.append_assoc, h.rest]
    exact congrArg (spoken.said ++ ·)
      (closing_waited script.last first second more heard hwaited hless)

/-- All bytes that have been read are written after the last message. -/
structure Echoing (script : Script) (due : List Char8) (spoken : Spoken) : Prop where
  clock : AtRest script spoken.clock
  rest : ∃ before, (∀ heard, transcript script.last script.reports spoken.clock heard =
    before ++ heard) ∧ spoken.said ++ due = before ++ spoken.heard

/-- While the kernel echoes, what is due is the byte that it has read. -/
theorem Echoing.text {due : List Char8} (h : Echoing script due spoken) :
    script.text spoken = spoken.said ++ due := by
  obtain ⟨before, hrest, hsaid⟩ := h.rest
  rw [Script.text, hrest, hsaid]

/-- A poll of the line status changes nothing of the text. -/
theorem Echoing.poll {due : List Char8} (h : Echoing script due spoken) (status : BitVec 8) :
    Echoing script due (spoken.next (.read (com1Port + 5) status)) :=
  ⟨h.clock, h.rest⟩

/-- `kgetc` reads one byte, for which it does not wait. -/
theorem kgetc_echoing (h : Echoing script [] spoken) (hready : spoken.ready = true) :
    Meets script.protocol kgetc
      (fun c after => Echoing script [c.setWidth 8] after) spoken := by
  refine meets_kgetc (fun after => Echoing script [] after ∧ after.ready = true) ⟨h, hready⟩
    (fun after hafter status hrelies _ => bne_iff_ne.mp (hrelies rfl hafter.2))
    (fun after hafter status hrelies =>
      ⟨.inl rfl, hafter.1.poll status, hrelies rfl hafter.2⟩) ?_
  rintro after ⟨hafter, -⟩ status hready c
  refine ⟨.inr ⟨rfl, bne_iff_ne.mpr hready⟩, ?_⟩
  obtain ⟨before, hrest, hsaid⟩ := hafter.rest
  have hbyte : (c.setWidth 32).setWidth 8 = c := by
    simp
  rw [hbyte]
  refine ⟨hafter.clock, before, hrest, ?_⟩
  show after.said ++ [c] = before ++ (after.heard ++ [c])
  rw [← List.append_assoc, ← hsaid, List.append_nil]

/-- `kputc` writes the byte that is due. -/
theorem kputc_echoing (c : BitVec 32) (h : Echoing script [c.setWidth 8] spoken) :
    Meets script.protocol (kputc c) (fun _ after => Echoing script [] after) spoken := by
  refine meets_kputc (Echoing script [c.setWidth 8]) h (fun status h => bne_iff_ne.mp (h rfl))
    (fun after hafter status => ⟨.inl rfl, hafter.poll status⟩) ?_
  intro after hafter status hempty
  refine ⟨⟨rfl, bne_iff_ne.mpr hempty, ?_⟩, ?_⟩
  · show after.said ++ [c.setWidth 8] <+: script.text after
    rw [hafter.text]
  · obtain ⟨before, hrest, hsaid⟩ := hafter.rest
    refine ⟨hafter.clock, before, hrest, ?_⟩
    show after.said ++ [c.setWidth 8] ++ [] = before ++ after.heard
    rw [List.append_nil, hsaid]

/-- The loop that echoes does not end. -/
theorem echo_loop_meets (h : Echoing script [] spoken) :
    Meets script.protocol echoLoop (fun _ _ => False) spoken := by
  refine Meets.loop (Echoing script []) h
    (fun spoken h => ⟨?_, fun status hrelies => ⟨.inl rfl, ?_⟩⟩) fun _ _ => trivial
  · refine ⟨?_, h.clock⟩
    rw [h.text, List.append_nil]
  · show Meets _ (if status &&& 1 ≠ 0 then _ else _ : Program KernelMemory Bool) _ _
    split
    · next hreceived =>
      refine Meets.bind ((kgetc_echoing (h.poll status) (bne_iff_ne.mpr hreceived)).mono
        fun c after hafter => ?_)
      exact Meets.bind ((kputc_echoing c hafter).mono fun _ final hfinal => hfinal)
    · exact h.poll status

/-- The main program before its first step. -/
def Spoken.start : Spoken where
  clock := []
  heard := []
  said := []
  empty := false
  ready := false

/-- The end of `_start` keeps to the protocol of its script. -/
theorem start_end_meets (script : Script) (buff : StrBuff) :
    Meets script.protocol (startEnd script.reports script.last buff) (fun _ _ => False)
      Spoken.start := by
  refine Meets.bind ((report_all_meets buff ⟨rfl, Nat.zero_add _, fun more heard => rfl⟩).mono ?_)
  intro buff reported hreported
  refine Meets.bind ((wait_until_meets hreported).mono ?_)
  intro _ waited hwaited
  have hdue : ∀ first second, waited.said ++ script.last.line first second <+:
      transcript script.last script.reports (waited.clock ++ [first, second]) waited.heard := by
    intro first second
    rw [hwaited.rest, hwaited.heard, List.append_nil]
  refine Meets.bind ((serial_printf_meets script.last buff hdue).mono ?_)
  rintro _ after ⟨first, second, hafter⟩
  refine echo_loop_meets ⟨?_, waited.said ++ script.last.line first second, ?_, ?_⟩
  · rw [hafter.clock]
    exact hwaited.clock first second
  · intro heard
    rw [hafter.clock, hwaited.rest, List.append_assoc]
  · rw [hafter.said, hafter.heard, hwaited.heard, List.append_nil]

/-! ## The handlers -/

/-- What a handler has done for its vector. -/
structure Service where
  vector : BitVec 8
  sent : List Char8
  ticked : Bool
  /-- The transmitter was empty, and nothing has been written since. -/
  empty : Bool
  ended : Bool

/-- The text that the handler of a vector prints. -/
def serviceText (vector : BitVec 8) : List Char8 :=
  if vector = 0x21 then keyboardText else []

def Service.next (service : Service) : Access KernelMemory → Service
  | .read port value =>
      if port = com1Port + 5 then { service with empty := transmitterEmpty value } else service
  | .write port value =>
      if port = com1Port then { service with sent := service.sent ++ [value], empty := false }
      else { service with ended := true }
  | .store _ => { service with ticked := true }
  | _ => service

/-- The handler has printed its text, and that of the timer has counted. -/
structure Service.Complete (service : Service) : Prop where
  sent : service.sent = serviceText service.vector
  ticked : service.ticked = decide (service.vector = 0x20)

/-- A handler prints its text to an empty transmitter, or counts, and then ends the interrupt. -/
def serviceProtocol : Protocol KernelMemory Service where
  next := Service.next
  allowed service
    | .read port _ => port = com1Port + 5 ∨ port = keyboardData
    | .write port value =>
        service.ended = false ∧
          (port = com1Port ∧ service.empty = true ∧
              service.sent ++ [value] <+: serviceText service.vector ∨
            port = pic1Command ∧ value = picEoi ∧ service.Complete)
    | .store update =>
        service.ended = false ∧ service.vector = 0x20 ∧ service.ticked = false ∧
          ∀ memory, (update memory).msCount = memory.msCount + 1
    | _ => False
  waits _ := False
  relies _ _ _ := True
  awaited port value := port = com1Port + 5 → transmitterEmpty value = true

/-- The interrupt is ended, and nothing is left to do. -/
structure Service.Returns (service : Service) : Prop where
  ended : service.ended = true
  complete : service.Complete

/-- A handler before its first step. -/
def Service.start (vector : BitVec 8) : Service where
  vector := vector
  sent := []
  ticked := false
  empty := false
  ended := false

/-- `PIC_sendEOI`, when all else is done. -/
theorem eoi_meets {service : Service} (hended : service.ended = false)
    (hcomplete : service.Complete) :
    Meets serviceProtocol (picSendEoi 0) (fun _ after => after.Returns) service :=
  ⟨⟨hended, .inr ⟨rfl, rfl, hcomplete⟩⟩, rfl, hcomplete.sent, hcomplete.ticked⟩

/-- The timer's handler keeps to the protocol. -/
theorem timer_meets :
    Meets serviceProtocol timerHandler (fun _ after => after.Returns) (Service.start 0x20) :=
  ⟨⟨rfl, rfl, rfl, fun _ => rfl⟩, eoi_meets rfl ⟨rfl, rfl⟩⟩

/-- What the keyboard's handler has still to print. -/
structure DueService (text : List Char8) (service : Service) : Prop where
  vector : service.vector = 0x21
  ended : service.ended = false
  ticked : service.ticked = false
  sent : service.sent ++ text = keyboardText

/-- The protocol lets a handler write its text. -/
theorem service_speaks : Speaks serviceProtocol DueService where
  awaits status h := bne_iff_ne.mp (h rfl)
  poll _ h := ⟨.inl rfl, h.vector, h.ended, h.ticked, h.sent⟩
  write := by
    intro c text service status h hempty
    have hnext : service.sent ++ [c] ++ text = keyboardText := by
      rw [List.append_assoc, List.singleton_append]
      exact h.sent
    refine ⟨⟨h.ended, .inl ⟨rfl, bne_iff_ne.mpr hempty, ?_⟩⟩, h.vector, h.ended, h.ticked, hnext⟩
    show service.sent ++ [c] <+: serviceText service.vector
    rw [h.vector, serviceText, if_pos rfl, ← hnext]
    exact List.prefix_append _ text

/-- The keyboard's handler keeps to the protocol. -/
theorem keyboard_meets :
    Meets serviceProtocol keyboardHandler (fun _ after => after.Returns) (Service.start 0x21) := by
  have hstart : DueService (keyboardText ++ []) (Service.start 0x21) :=
    ⟨rfl, rfl, rfl, List.append_nil _⟩
  refine Meets.bind ((service_speaks.kputs (by decide) hstart).mono ?_)
  intro _ after hafter scancode _
  refine ⟨.inr rfl, eoi_meets hafter.ended ⟨?_, ?_⟩⟩
  · show after.sent = serviceText after.vector
    rw [hafter.vector, serviceText, if_pos rfl, ← hafter.sent, List.append_nil]
  · show after.ticked = decide (after.vector = 0x20)
    rw [hafter.ticked, hafter.vector]
    rfl

end SiStultum
