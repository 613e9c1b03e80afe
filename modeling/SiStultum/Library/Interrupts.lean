import SiStultum.Library.PortPrograms
import SiStultum.Library.Runs

/-!
# A main program and its interrupt handlers

One processor runs a main program. An interrupt takes it to the handler of its vector, which runs to
its end before the main program goes on. A main program that waits for an interrupt first puts the
processor to sleep: an interrupt that comes before that step does not end the wait. The devices may
change at any time.

A `Discipline` has a protocol for the main program, one for the handlers, and an invariant of the
devices, of the memory and of the states of the two automata. It is `Sound` when the accesses that
the protocols allow, an interrupt, the return from it and what the devices do keep the invariant.
`kept_run` is the conclusion: in every run, whatever the order of the events, the invariant holds,
and the programs keep to their protocols.
-/

namespace Interrupts

open PortPrograms

variable {δ M ε : Type}

/-- The devices of a processor, and the code of its handlers. -/
structure Machine (δ M ε : Type) where
  bus : Bus δ
  /-- The vector of the interrupt that the devices present, and the devices once it is taken. -/
  accept : δ → Option (BitVec 8 × δ)
  service : BitVec 8 → Program M Unit
  /-- What the devices do by themselves. -/
  outside : δ → ε → δ

/-- A processor that runs the main program, or the handler that interrupts it. -/
structure State (δ M : Type) where
  world : World δ M
  main : Program M Unit
  /-- The main program waits for an interrupt. -/
  asleep : Bool
  handler : Option (Program M Unit)
  /-- The vectors of the interrupts so far. -/
  taken : List (BitVec 8)

inductive Event (ε : Type) where
  | run
  | interrupt
  | outside (event : ε)

variable (machine : Machine δ M ε)

/-- One step of the program that runs. A handler that has ended returns to the main program, with
interrupts enabled as they were before. -/
def State.proceed (state : State δ M) : State δ M :=
  match state.handler with
  | none =>
      { state with
        main := (step machine.bus state.main state.world).1
        asleep := state.main.waits
        world := (step machine.bus state.main state.world).2 }
  | some (.done _) =>
      { state with world := { state.world with interrupts := true }, handler := none }
  | some program =>
      { state with
        handler := some (step machine.bus program state.world).1
        world := (step machine.bus program state.world).2 }

/-- What is left of the main program when it goes on after an interrupt. -/
def State.woken (state : State δ M) : Program M Unit :=
  if state.asleep then state.main.wake else state.main

/-- The processor takes an interrupt, unless they are disabled or there is none. -/
def State.take (state : State δ M) : State δ M :=
  if state.world.interrupts = true ∧ state.handler.isNone = true then
    match machine.accept state.world.devices with
    | none => state
    | some (vector, devices) =>
        { world := { state.world with devices := devices, interrupts := false }
          main := state.woken
          asleep := false
          handler := some (machine.service vector)
          taken := state.taken ++ [vector] }
  else state

/-- One event. -/
def State.next (state : State δ M) : Event ε → State δ M
  | .run => state.proceed machine
  | .interrupt => state.take machine
  | .outside event =>
      { state with
        world := { state.world with devices := machine.outside state.world.devices event } }

/-! ## Disciplines -/

/-- Protocols for the main program and for the handlers, and an invariant that ties them to the
devices and the memory. -/
structure Discipline (δ M γ κ : Type) where
  main : Protocol M γ
  handler : Protocol M κ
  /-- The handler may return. -/
  ended : κ → Prop
  inv : World δ M → List (BitVec 8) → γ → Option κ → Prop

/-- An access has read what is there. -/
def Observed (bus : Bus δ) (world : World δ M) : Access M → Prop
  | .read port value => value = (bus.inb port world.devices).1
  | .load memory => memory = world.memory
  | _ => True

variable {γ κ : Type} (discipline : Discipline δ M γ κ)

/-- Everything that can happen keeps the invariant. -/
structure Discipline.Sound : Prop where
  main_reads : ∀ {world taken ghost}, discipline.inv world taken ghost none →
    ∀ port, discipline.main.relies ghost port (machine.bus.inb port world.devices).1
  handler_reads : ∀ {world taken ghost inner}, discipline.inv world taken ghost (some inner) →
    ∀ port, discipline.handler.relies inner port (machine.bus.inb port world.devices).1
  main_access : ∀ {world taken ghost event}, discipline.inv world taken ghost none →
    discipline.main.allowed ghost event → Observed machine.bus world event →
    discipline.inv (perform machine.bus world event) taken (discipline.main.next ghost event) none
  handler_access : ∀ {world taken ghost inner event},
    discipline.inv world taken ghost (some inner) → discipline.handler.allowed inner event →
    Observed machine.bus world event →
    discipline.inv (perform machine.bus world event) taken ghost
      (some (discipline.handler.next inner event))
  take : ∀ {world taken ghost vector devices}, discipline.inv world taken ghost none →
    world.interrupts = true → machine.accept world.devices = some (vector, devices) →
    ∃ inner, Meets discipline.handler (machine.service vector)
        (fun _ after => discipline.ended after) inner ∧
      discipline.inv { world with devices := devices, interrupts := false } (taken ++ [vector])
        ghost (some inner)
  leave : ∀ {world taken ghost inner}, discipline.inv world taken ghost (some inner) →
    discipline.ended inner →
    discipline.inv { world with interrupts := true } taken ghost none
  outside : ∀ {world taken ghost inner} (event : ε), discipline.inv world taken ghost inner →
    discipline.inv { world with devices := machine.outside world.devices event } taken ghost inner

/-- What is left of a handler keeps to its protocol. -/
def Discipline.Serves : Option (Program M Unit) → Option κ → Prop
  | none, none => True
  | some program, some inner =>
      Meets discipline.handler program (fun _ after => discipline.ended after) inner
  | _, _ => False

/-- The programs keep to their protocols, the main program does not end, and the invariant
holds. -/
structure Discipline.Kept (state : State δ M) (ghost : γ) (inner : Option κ) : Prop where
  main : Meets discipline.main state.main (fun _ _ => False) ghost
  handler : discipline.Serves state.handler inner
  inv : discipline.inv state.world state.taken ghost inner

/-- An access has read what is there. -/
theorem observed_access {α : Type} {bus : Bus δ} {world : World δ M} {program : Program M α}
    {event : Access M} (h : access bus world program = some event) : Observed bus world event := by
  cases program <;> cases h
  all_goals first | exact rfl | exact True.intro

variable {machine discipline} {state : State δ M} {ghost : γ} {inner : Option κ}

/-- A step of a program does what its access does. -/
theorem inv_step {α : Type} {protocol : Protocol M γ} (inv : World δ M → γ → Prop) {bus : Bus δ}
    (haccess : ∀ {world ghost event}, inv world ghost → protocol.allowed ghost event →
      Observed bus world event → inv (perform bus world event) (protocol.next ghost event))
    {program : Program M α} {post : α → γ → Prop} {world : World δ M}
    (hrelies : ∀ port, protocol.relies ghost port (bus.inb port world.devices).1)
    (hmeets : Meets protocol program post ghost) (hinv : inv world ghost) :
    inv (step bus program world).2 (protocol.after ghost (access bus world program)) := by
  rw [step]
  cases hevent : access bus world program with
  | none => exact hinv
  | some event =>
      exact haccess hinv ((hmeets.step bus world hrelies).1 event hevent) (observed_access hevent)

/-- The step of a handler that has not ended. -/
theorem State.proceed_handler {program : Program M Unit} (h : state.handler = some program)
    (hdone : ∀ value, program ≠ .done value) :
    state.proceed machine =
      { state with
        handler := some (step machine.bus program state.world).1
        world := (step machine.bus program state.world).2 } := by
  rw [State.proceed, h]
  cases program with
  | done value => exact absurd rfl (hdone value)
  | _ => rfl

/-- Without a handler the main program makes a step. -/
theorem State.proceed_main (h : state.handler = none) :
    state.proceed machine =
      { state with
        main := (step machine.bus state.main state.world).1
        asleep := state.main.waits
        world := (step machine.bus state.main state.world).2 } := by
  rw [State.proceed, h]

/-- One step of the main program. -/
theorem Discipline.Kept.main_step (h : discipline.Kept state ghost none)
    (hsound : discipline.Sound machine) (hnone : state.handler = none) :
    discipline.Kept (state.proceed machine)
      (discipline.main.after ghost (access machine.bus state.world state.main)) none := by
  obtain ⟨hmain, hhandler, hinv⟩ := h
  have hrelies := hsound.main_reads hinv
  rw [State.proceed_main hnone]
  refine ⟨(hmain.step machine.bus state.world hrelies).2, hhandler, ?_⟩
  exact inv_step (fun world ghost => discipline.inv world state.taken ghost none)
    hsound.main_access hrelies hmain hinv

/-- One step of a handler. -/
theorem Discipline.Kept.handler_step {inner : κ} (h : discipline.Kept state ghost (some inner))
    (hsound : discipline.Sound machine) {program : Program M Unit}
    (hprogram : state.handler = some program) (hdone : ∀ value, program ≠ .done value) :
    discipline.Kept (state.proceed machine) ghost
      (some (discipline.handler.after inner (access machine.bus state.world program))) := by
  obtain ⟨hmain, hhandler, hinv⟩ := h
  rw [hprogram] at hhandler
  have hmeets : Meets discipline.handler program (fun _ after => discipline.ended after) inner :=
    hhandler
  have hrelies := hsound.handler_reads hinv
  rw [State.proceed_handler hprogram hdone]
  refine ⟨hmain, (hmeets.step machine.bus state.world hrelies).2, ?_⟩
  exact inv_step (fun world inner => discipline.inv world state.taken ghost (some inner))
    hsound.handler_access hrelies hmeets hinv

/-- The return of a handler. -/
theorem Discipline.Kept.leave {inner : κ} (h : discipline.Kept state ghost (some inner))
    (hsound : discipline.Sound machine) {value : Unit}
    (hdone : state.handler = some (.done value)) :
    discipline.Kept (state.proceed machine) ghost none := by
  obtain ⟨hmain, hhandler, hinv⟩ := h
  rw [hdone] at hhandler
  rw [State.proceed, hdone]
  exact ⟨hmain, trivial, hsound.leave hinv hhandler⟩

/-- An interrupt that the devices present is taken when interrupts are enabled. -/
theorem State.take_of_accept {vector : BitVec 8} {devices : δ}
    (henabled : state.world.interrupts = true) (hnone : state.handler = none)
    (haccept : machine.accept state.world.devices = some (vector, devices)) :
    state.take machine =
      { world := { state.world with devices := devices, interrupts := false }
        main := state.woken
        asleep := false
        handler := some (machine.service vector)
        taken := state.taken ++ [vector] } := by
  rw [State.take, hnone, if_pos ⟨henabled, rfl⟩, haccept]

/-- A handler runs exactly when its protocol has a state. -/
theorem Discipline.Kept.handler_none (h : discipline.Kept state ghost inner) :
    state.handler = none ↔ inner = none := by
  have hserves := h.handler
  cases hrunning : state.handler <;> cases inner <;> rw [hrunning] at hserves
  · exact iff_of_true rfl rfl
  · exact hserves.elim
  · exact hserves.elim
  · exact iff_of_false nofun nofun

/-- One step of the program that runs. -/
theorem kept_proceed (hsound : discipline.Sound machine) (h : discipline.Kept state ghost inner) :
    ∃ ghost inner, discipline.Kept (state.proceed machine) ghost inner := by
  cases inner with
  | none => exact ⟨_, none, h.main_step hsound (h.handler_none.mpr rfl)⟩
  | some inner =>
      cases hrunning : state.handler with
      | none => cases h.handler_none.mp hrunning
      | some program =>
          by_cases hdone : ∃ value, program = .done value
          · obtain ⟨value, rfl⟩ := hdone
            exact ⟨ghost, none, h.leave hsound hrunning⟩
          · exact ⟨ghost, _, h.handler_step hsound hrunning fun value heq => hdone ⟨value, heq⟩⟩

/-- A main program that is woken goes on with its protocol. -/
theorem meets_woken {protocol : Protocol M γ} {post : Unit → γ → Prop}
    (h : Meets protocol state.main post ghost) : Meets protocol state.woken post ghost := by
  rw [State.woken]
  split
  · exact h.wake
  · exact h

/-- An interrupt, if it is taken. -/
theorem kept_take (hsound : discipline.Sound machine) (h : discipline.Kept state ghost inner) :
    ∃ ghost inner, discipline.Kept (state.take machine) ghost inner := by
  rw [State.take]
  split
  · next henabled =>
      cases haccept : machine.accept state.world.devices with
      | none => exact ⟨ghost, inner, h⟩
      | some accepted =>
          obtain ⟨hmain, hhandler, hinv⟩ := h
          obtain ⟨hinterrupts, hnone⟩ := henabled
          rw [Option.isNone_iff_eq_none] at hnone
          rw [hnone] at hhandler
          cases inner with
          | some inner => exact hhandler.elim
          | none =>
              obtain ⟨entered, hservice, htaken⟩ := hsound.take hinv hinterrupts haccept
              exact ⟨ghost, some entered, meets_woken hmain, hservice, htaken⟩
  · exact ⟨ghost, inner, h⟩

/-- A change of the devices. -/
theorem Discipline.Kept.outside (h : discipline.Kept state ghost inner)
    (hsound : discipline.Sound machine) (event : ε) :
    discipline.Kept (state.next machine (.outside event)) ghost inner :=
  ⟨h.main, h.handler, hsound.outside event h.inv⟩

/-- One event. -/
theorem kept_next (hsound : discipline.Sound machine) (h : discipline.Kept state ghost inner)
    (event : Event ε) : ∃ ghost inner, discipline.Kept (state.next machine event) ghost inner := by
  cases event with
  | run => exact kept_proceed hsound h
  | interrupt => exact kept_take hsound h
  | outside event => exact ⟨ghost, inner, h.outside hsound event⟩

/-- Every run, whatever the order of the events. -/
theorem kept_run (hsound : discipline.Sound machine)
    (h : ∃ ghost inner, discipline.Kept state ghost inner) (events : List (Event ε)) :
    ∃ ghost inner, discipline.Kept (Runs.run (State.next machine) state events) ghost inner := by
  refine Runs.run_invariant (fun state => ∃ ghost inner, discipline.Kept state ghost inner) ?_ h
    events
  rintro state event ⟨ghost, inner, hkept⟩
  exact kept_next hsound hkept event

/-- A main program that waits has done what its protocol asks for. -/
theorem Discipline.Kept.waits (h : discipline.Kept state ghost inner) {next : Program M Unit}
    (hhalt : state.main = .halt next) : discipline.main.waits ghost := by
  have hmain := h.main
  rw [hhalt] at hmain
  exact hmain.1

end Interrupts
