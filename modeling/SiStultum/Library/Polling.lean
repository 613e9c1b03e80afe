import SiStultum.Library.Interrupts

/-!
# Polling comes to an end

A program that keeps to a protocol polls the devices for what its protocol names. Where the devices
can always come to give it, the program comes to its end, or to a wait for an interrupt:
`Steady.settles` for one program, `Discipline.Kept.returns` for the handler that runs, and
`Discipline.Kept.settles` for the main program after it. `quiet` are the changes of the devices that
this takes, and no interrupt is among the events.
-/

namespace Interrupts

open PortPrograms

variable {δ M ε γ : Type} {α β : Type}

/-- A program runs while the devices change by themselves. -/
inductive Reaches (bus : Bus δ) (change : δ → ε → δ) (quiet : ε → Prop) :
    Program M α → World δ M → Program M α → World δ M → Prop where
  | here (program : Program M α) (world : World δ M) :
      Reaches bus change quiet program world program world
  | change {program after : Program M α} {world final : World δ M} (event : ε)
      (hquiet : quiet event)
      (rest : Reaches bus change quiet program
        { world with devices := change world.devices event } after final) :
      Reaches bus change quiet program world after final
  | step {program after : Program M α} {world final : World δ M}
      (hdone : ∀ value, program ≠ .done value)
      (rest : Reaches bus change quiet (step bus program world).1 (step bus program world).2
        after final) :
      Reaches bus change quiet program world after final

/-- An invariant of the world and of the automaton of a program, under which the program can count
on what it relies on, and the devices can come to give what it is waiting for. -/
structure Steady (bus : Bus δ) (change : δ → ε → δ) (quiet : ε → Prop) (protocol : Protocol M γ)
    (inv : World δ M → γ → Prop) : Prop where
  keeps : ∀ {world ghost event}, inv world ghost → protocol.allowed ghost event →
    Observed bus world event → inv (perform bus world event) (protocol.next ghost event)
  reads : ∀ {world ghost}, inv world ghost →
    ∀ port, protocol.relies ghost port (bus.inb port world.devices).1
  changes : ∀ {world ghost} (event : ε), inv world ghost →
    inv { world with devices := change world.devices event } ghost
  awaited : ∀ {world ghost}, inv world ghost → ∀ port, ∃ events : List ε,
    (∀ event ∈ events, quiet event) ∧
      protocol.awaited port (bus.inb port (events.foldl change world.devices)).1

variable {bus : Bus δ} {change : δ → ε → δ} {quiet : ε → Prop} {protocol : Protocol M γ}
variable {inv : World δ M → γ → Prop}

/-- The program is at its end, or waits for an interrupt. -/
def Settled (program : Program M α) : Prop :=
  (∃ value, program = .done value) ∨ ∃ next, program = .halt next

/-- The program comes to its end, or to a wait. -/
def Settles (bus : Bus δ) (change : δ → ε → δ) (quiet : ε → Prop) (protocol : Protocol M γ)
    (inv : World δ M → γ → Prop) (post : α → γ → Prop) (program : Program M α)
    (world : World δ M) : Prop :=
  ∃ after final ghost, Reaches bus change quiet program world after final ∧ Settled after ∧
    Meets protocol after post ghost ∧ inv final ghost

variable {post : α → γ → Prop} {program : Program M α} {world : World δ M} {ghost : γ}

/-- One step towards the end. -/
theorem Settles.step (hdone : ∀ value, program ≠ .done value)
    (h : Settles bus change quiet protocol inv post (PortPrograms.step bus program world).1
      (PortPrograms.step bus program world).2) :
    Settles bus change quiet protocol inv post program world := by
  obtain ⟨after, final, ghost, hreaches, hrest⟩ := h
  exact ⟨after, final, ghost, .step hdone hreaches, hrest⟩

/-- The devices change first. -/
theorem Settles.changes {events : List ε} (hquiet : ∀ event ∈ events, quiet event)
    (h : Settles bus change quiet protocol inv post program
      { world with devices := events.foldl change world.devices }) :
    Settles bus change quiet protocol inv post program world := by
  induction events generalizing world with
  | nil => exact h
  | cons event events ih =>
      rw [List.forall_mem_cons] at hquiet
      obtain ⟨after, final, ghost, hreaches, hrest⟩ :=
        @ih ⟨change world.devices event, world.memory, world.interrupts⟩ hquiet.2 h
      exact ⟨after, final, ghost, .change event hquiet.1 hreaches, hrest⟩

/-- Changes of the devices keep the invariant. -/
theorem Steady.change_all (hsteady : Steady bus change quiet protocol inv) (h : inv world ghost)
    (events : List ε) :
    inv { world with devices := events.foldl change world.devices } ghost := by
  induction events generalizing world with
  | nil => exact h
  | cons event events ih => exact ih (hsteady.changes event h)

/-- One step keeps the invariant and the protocol. -/
theorem Steady.step (hsteady : Steady bus change quiet protocol inv)
    (hmeets : Meets protocol program post ghost) (hinv : inv world ghost) :
    Meets protocol (PortPrograms.step bus program world).1 post
        (protocol.after ghost (access bus world program)) ∧
      inv (PortPrograms.step bus program world).2
        (protocol.after ghost (access bus world program)) :=
  ⟨(hmeets.step bus world (hsteady.reads hinv)).2,
    inv_step inv hsteady.keeps (hsteady.reads hinv) hmeets hinv⟩

/-- The first of two programs stops; the second one settles. -/
theorem Steady.settles_bind (hsteady : Steady bus change quiet protocol inv) {first : Program M β}
    {rest : β → Program M α} {stops : β → γ → Prop} (hstops : Stops protocol first stops ghost)
    (hmeets : Meets protocol (first.bind rest) post ghost) (hinv : inv world ghost)
    (hrest : ∀ value ghost world, stops value ghost → Meets protocol (rest value) post ghost →
      inv world ghost → Settles bus change quiet protocol inv post (rest value) world) :
    Settles bus change quiet protocol inv post (first.bind rest) world := by
  induction first generalizing ghost world with
  | done value => exact hrest value ghost world hstops hmeets hinv
  | inb port next ih =>
      -- the devices come to give what is awaited, and the program reads it
      obtain ⟨events, hquiet, hawaited⟩ := hsteady.awaited hinv port
      have hchanged := hsteady.change_all hinv events
      refine Settles.changes hquiet (Settles.step nofun ?_)
      obtain ⟨hnext, hafter⟩ := hsteady.step hmeets hchanged
      exact ih _ (hstops _ (hsteady.reads hchanged port) hawaited) hnext hafter hrest
  | outb port value next ih =>
      obtain ⟨hnext, hafter⟩ := hsteady.step hmeets hinv
      exact Settles.step nofun (ih hstops hnext hafter hrest)
  | load next ih =>
      obtain ⟨hnext, hafter⟩ := hsteady.step hmeets hinv
      exact Settles.step nofun (ih _ (hstops _) hnext hafter hrest)
  | store update next ih =>
      obtain ⟨hnext, hafter⟩ := hsteady.step hmeets hinv
      exact Settles.step nofun (ih hstops hnext hafter hrest)
  | halt next => exact ⟨_, world, ghost, .here _ _, .inr ⟨_, rfl⟩, hmeets, hinv⟩
  | flag enabled next ih =>
      obtain ⟨hnext, hafter⟩ := hsteady.step hmeets hinv
      exact Settles.step nofun (ih hstops hnext hafter hrest)
  | loop body next ihbody ih =>
      -- the turn that begins here is the last one
      obtain ⟨hnext, hafter⟩ := hsteady.step hmeets hinv
      refine Settles.step nofun (ihbody hstops hnext hafter ?_)
      rintro _ ghost world ⟨rfl, hnext⟩ hmeets hinv
      exact ih hnext hmeets hinv hrest
  | abort => exact hstops.elim

/-- A program that keeps to its protocol settles. -/
theorem Steady.settles (hsteady : Steady bus change quiet protocol inv)
    (hmeets : Meets protocol program post ghost) (hinv : inv world ghost) :
    Settles bus change quiet protocol inv post program world := by
  rw [← program.bind_done]
  refine hsteady.settles_bind hmeets.stops (by rwa [program.bind_done]) hinv ?_
  intro value ghost world _ hmeets hinv
  exact ⟨_, world, ghost, .here _ _, .inl ⟨value, rfl⟩, hmeets, hinv⟩

/-! ## Runs without an interrupt -/

variable {γ κ : Type} {machine : Machine δ M ε} {discipline : Discipline δ M γ κ}
variable {state : State δ M} {ghost : γ}

/-- No interrupt is taken, and the devices change in a quiet way only. -/
def Calm (quiet : ε → Prop) (events : List (Event ε)) : Prop :=
  ∀ event ∈ events, event = .run ∨ ∃ change, quiet change ∧ event = .outside change

/-- Nothing happens. -/
theorem calm_nil : Calm quiet [] :=
  List.forall_mem_nil _

/-- A step of the processor is calm. -/
theorem calm_run {events : List (Event ε)} (h : Calm quiet events) :
    Calm quiet (.run :: events) :=
  List.forall_mem_cons.mpr ⟨.inl rfl, h⟩

/-- Two calm sequences, one after the other. -/
theorem calm_append {first second : List (Event ε)} (hfirst : Calm quiet first)
    (hsecond : Calm quiet second) : Calm quiet (first ++ second) :=
  List.forall_mem_append.mpr ⟨hfirst, hsecond⟩

/-- The devices change, and nothing else. -/
theorem run_changes (state : State δ M) (changes : List ε) :
    Runs.run (State.next machine) state (changes.map .outside) =
      { state with
        world := { state.world with
          devices := changes.foldl machine.outside state.world.devices } } := by
  induction changes generalizing state with
  | nil => rfl
  | cons event changes ih => exact ih _

/-- Quiet changes are calm. -/
theorem calm_changes {changes : List ε} (h : ∀ change ∈ changes, quiet change) :
    Calm quiet (changes.map .outside) := by
  intro event hmem
  obtain ⟨change, hchange, rfl⟩ := List.mem_map.mp hmem
  exact .inr ⟨change, h change hchange, rfl⟩

/-- Changes of the devices keep the invariant and the protocols. -/
theorem Discipline.Kept.changes (hsound : discipline.Sound machine) {inner : Option κ}
    (h : discipline.Kept state ghost inner) (changes : List ε) :
    discipline.Kept (Runs.run (State.next machine) state (changes.map .outside)) ghost inner := by
  induction changes generalizing state with
  | nil => exact h
  | cons event changes ih => exact ih (h.outside hsound event)

/-- The main program goes on while no handler runs. -/
theorem Reaches.run_main {program after : Program M Unit} {world final : World δ M}
    (h : Reaches machine.bus machine.outside quiet program world after final) (asleep : Bool)
    (taken : List (BitVec 8)) :
    ∃ events waits, Calm quiet events ∧
      Runs.run (State.next machine) ⟨world, program, asleep, none, taken⟩ events =
        ⟨final, after, waits, none, taken⟩ := by
  induction h generalizing asleep with
  | here program world => exact ⟨[], asleep, calm_nil, rfl⟩
  | change event hquiet _ ih =>
      obtain ⟨events, waits, hcalm, hrun⟩ := ih asleep
      exact ⟨.outside event :: events, waits,
        List.forall_mem_cons.mpr ⟨.inr ⟨event, hquiet, rfl⟩, hcalm⟩, hrun⟩
  | @step program _ _ _ _ _ ih =>
      obtain ⟨events, waits, hcalm, hrun⟩ := ih program.waits
      exact ⟨.run :: events, waits, calm_run hcalm, hrun⟩

/-- A handler goes on. -/
theorem Reaches.run_handler {program after : Program M Unit} {world final : World δ M}
    (h : Reaches machine.bus machine.outside quiet program world after final)
    (main : Program M Unit) (asleep : Bool) (taken : List (BitVec 8)) :
    ∃ events, Calm quiet events ∧
      Runs.run (State.next machine) ⟨world, main, asleep, some program, taken⟩ events =
        ⟨final, main, asleep, some after, taken⟩ := by
  induction h with
  | here program world => exact ⟨[], calm_nil, rfl⟩
  | change event hquiet _ ih =>
      obtain ⟨events, hcalm, hrun⟩ := ih
      exact ⟨.outside event :: events,
        List.forall_mem_cons.mpr ⟨.inr ⟨event, hquiet, rfl⟩, hcalm⟩, hrun⟩
  | @step program after world final hdone _ ih =>
      obtain ⟨events, hcalm, hrun⟩ := ih
      refine ⟨.run :: events, calm_run hcalm, ?_⟩
      rw [Runs.run_cons]
      show Runs.run _ (State.proceed machine ⟨world, main, asleep, some program, taken⟩) events = _
      rw [State.proceed_handler rfl hdone]
      exact hrun

/-- The devices can come to give what a program is waiting for, in a quiet way. -/
structure Discipline.Awaited (machine : Machine δ M ε) (quiet : ε → Prop)
    (discipline : Discipline δ M γ κ) : Prop where
  main : ∀ {world taken ghost}, discipline.inv world taken ghost none → ∀ port,
    ∃ events : List ε, (∀ event ∈ events, quiet event) ∧ discipline.main.awaited port
      (machine.bus.inb port (events.foldl machine.outside world.devices)).1
  handler : ∀ {world taken ghost inner}, discipline.inv world taken ghost (some inner) → ∀ port,
    ∃ events : List ε, (∀ event ∈ events, quiet event) ∧ discipline.handler.awaited port
      (machine.bus.inb port (events.foldl machine.outside world.devices)).1
  /-- A handler does not wait for an interrupt. -/
  runs : ∀ inner, ¬ discipline.handler.waits inner

/-- The handler that runs can return. -/
theorem Discipline.Kept.returns (hsound : discipline.Sound machine)
    (hawaited : discipline.Awaited machine quiet) {inner : Option κ}
    (h : discipline.Kept state ghost inner) :
    ∃ events world, Calm quiet events ∧ Runs.run (State.next machine) state events =
        ⟨world, state.main, state.asleep, none, state.taken⟩ ∧
      discipline.Kept (Runs.run (State.next machine) state events) ghost none := by
  obtain ⟨world, main, asleep, handler, taken⟩ := state
  cases inner with
  | none =>
      obtain rfl : handler = none := h.handler_none.mpr rfl
      exact ⟨[], world, calm_nil, rfl, h⟩
  | some inner =>
      cases handler with
      | none => cases h.handler_none.mp rfl
      | some program =>
          have hsteady : Steady machine.bus machine.outside quiet discipline.handler
              (fun world inner => discipline.inv world taken ghost (some inner)) :=
            ⟨hsound.handler_access, hsound.handler_reads, hsound.outside, hawaited.handler⟩
          obtain ⟨after, final, last, hreaches, hsettled, hmeets, hinv⟩ :=
            hsteady.settles h.handler h.inv
          obtain ⟨events, hcalm, hrun⟩ := hreaches.run_handler main asleep taken
          obtain ⟨value, rfl⟩ | ⟨next, rfl⟩ := hsettled
          · -- one more step is the return
            have hkept : discipline.Kept ⟨final, main, asleep, some (.done value), taken⟩ ghost
              (some last) := ⟨h.main, hmeets, hinv⟩
            refine ⟨events ++ [.run], { final with interrupts := true },
              calm_append hcalm (calm_run calm_nil), ?_, ?_⟩
            · rw [Runs.run_append, hrun]
              rfl
            · rw [Runs.run_append, hrun]
              exact hkept.leave hsound rfl
          · exact absurd hmeets.1 (hawaited.runs last)

/-- The main program can come to a wait. -/
theorem Discipline.Kept.settles (hsound : discipline.Sound machine)
    (hawaited : discipline.Awaited machine quiet) {inner : Option κ}
    (h : discipline.Kept state ghost inner) :
    ∃ events ghost, Calm quiet events ∧
      discipline.Kept (Runs.run (State.next machine) state events) ghost none ∧
      (Runs.run (State.next machine) state events).taken = state.taken ∧
      (Runs.run (State.next machine) state events).asleep = true ∧
      ∃ next, (Runs.run (State.next machine) state events).main = .halt next := by
  obtain ⟨first, world, hfirst, hrun, hkept⟩ := h.returns hsound hawaited
  rw [hrun] at hkept
  have hsteady : Steady machine.bus machine.outside quiet discipline.main
      (fun world ghost => discipline.inv world state.taken ghost none) :=
    ⟨hsound.main_access, hsound.main_reads, hsound.outside, hawaited.main⟩
  obtain ⟨after, final, last, hreaches, hsettled, hmeets, hinv⟩ :=
    hsteady.settles hkept.main hkept.inv
  obtain ⟨second, waits, hsecond, hsettle⟩ := hreaches.run_main state.asleep state.taken
  obtain ⟨value, rfl⟩ | ⟨next, rfl⟩ := hsettled
  · exact hmeets.elim
  · -- one more step puts the processor to sleep
    have hsleep : Runs.run (State.next machine) state (first ++ (second ++ [.run])) =
        ⟨final, .halt next, true, none, state.taken⟩ := by
      rw [Runs.run_append, hrun, Runs.run_append, hsettle]
      rfl
    refine ⟨first ++ (second ++ [.run]), last,
      calm_append hfirst (calm_append hsecond (calm_run calm_nil)), ?_⟩
    rw [hsleep]
    exact ⟨⟨hmeets, trivial, hinv⟩, rfl, rfl, next, rfl⟩

end Interrupts
