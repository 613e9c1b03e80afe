import Mathlib.Tactic.Common

/-!
# Programs that talk to devices

A `Program` reads and writes ports and a shared memory, one access at a time, between which
interrupts and devices may do anything. `step` is one access, over any devices.

`Completes` is an uninterrupted run to the end, with the rules `Completes.bind` and
`Completes.of_exec`.

A `Protocol` is an automaton over the accesses of one program, with what the program relies on when
it reads. `Meets` is a weakest precondition: whatever the program reads, it keeps to the protocol,
it ends in a state of the automaton that meets the postcondition, and it polls for nothing but what
the protocol names. The rules are `Meets.mono`, `Meets.bind` and `Meets.loop`; `Meets.step` says
that a step keeps what is left of the program to the protocol, and `Meets.stops` that the program
stops when it reads what it polls for.
-/

namespace PortPrograms

/-- A program that returns an `α` and shares a memory `M` with others. -/
inductive Program (M : Type) : Type → Type 1 where
  | done {α : Type} (value : α) : Program M α
  | inb {α : Type} (port : BitVec 16) (next : BitVec 8 → Program M α) : Program M α
  | outb {α : Type} (port : BitVec 16) (value : BitVec 8) (next : Program M α) : Program M α
  | load {α : Type} (next : M → Program M α) : Program M α
  | store {α : Type} (update : M → M) (next : Program M α) : Program M α
  /-- Wait for an interrupt. -/
  | halt {α : Type} (next : Program M α) : Program M α
  /-- Enable or disable interrupts. -/
  | flag {α : Type} (enabled : Bool) (next : Program M α) : Program M α
  /-- Run the body as long as it returns `true`. -/
  | loop {α : Type} (body : Program M Bool) (next : Program M α) : Program M α
  /-- Nothing is known about the program from here on. -/
  | abort {α : Type} : Program M α

namespace Program

variable {M : Type} {α β : Type}

/-- One program after the other. -/
def bind : Program M α → (α → Program M β) → Program M β
  | done value, rest => rest value
  | inb port next, rest => inb port fun value => (next value).bind rest
  | outb port value next, rest => outb port value (next.bind rest)
  | load next, rest => load fun memory => (next memory).bind rest
  | store update next, rest => store update (next.bind rest)
  | halt next, rest => halt (next.bind rest)
  | flag enabled next, rest => flag enabled (next.bind rest)
  | loop body next, rest => loop body (next.bind rest)
  | abort, _ => abort

instance : Monad (Program M) where
  pure := done
  bind := bind

/-- `inb`, for its value. -/
def read (port : BitVec 16) : Program M (BitVec 8) :=
  inb port done

def write (port : BitVec 16) (value : BitVec 8) : Program M Unit :=
  outb port value (done ())

def fetch : Program M M :=
  load done

def modify (update : M → M) : Program M Unit :=
  store update (done ())

def wait : Program M Unit :=
  halt (done ())

def interruptFlag (enabled : Bool) : Program M Unit :=
  flag enabled (done ())

/-- Run the body until it returns `false`. -/
def repeatWhile (body : Program M Bool) : Program M Unit :=
  loop body (done ())

/-- Three programs, one after the other. -/
theorem bind_assoc {ζ : Type} (program : Program M α) (first : α → Program M β)
    (second : β → Program M ζ) :
    (program.bind first).bind second = program.bind fun value => (first value).bind second := by
  induction program with
  | done value => rfl
  | inb port next ih => exact congrArg (inb port) (funext fun value => ih value first)
  | outb port value next ih => exact congrArg (outb port value) (ih first)
  | load next ih => exact congrArg load (funext fun memory => ih memory first)
  | store update next ih => exact congrArg (store update) (ih first)
  | halt next ih => exact congrArg halt (ih first)
  | flag enabled next ih => exact congrArg (flag enabled) (ih first)
  | loop body next _ ih => exact congrArg (loop body) (ih first)
  | abort => rfl

/-- A program, and nothing after it. -/
theorem bind_done (program : Program M α) : program.bind done = program := by
  induction program with
  | done value => rfl
  | inb port next ih => exact congrArg (inb port) (funext ih)
  | outb port value next ih => exact congrArg (outb port value) ih
  | load next ih => exact congrArg load (funext ih)
  | store update next ih => exact congrArg (store update) ih
  | halt next ih => exact congrArg halt ih
  | flag enabled next ih => exact congrArg (flag enabled) ih
  | loop body next _ ih => exact congrArg (loop body) ih
  | abort => rfl

/-- The next step of the program is to wait for an interrupt. -/
def waits : Program M α → Bool
  | halt _ => true
  | _ => false

/-- The program after the interrupt that it waits for. -/
def wake : Program M α → Program M α
  | halt next => next
  | program => program

end Program

/-! ## Steps -/

/-- Devices that answer to accesses of ports. -/
structure Bus (δ : Type) where
  inb : BitVec 16 → δ → BitVec 8 × δ
  outb : BitVec 16 → BitVec 8 → δ → δ

/-- What a program works on. -/
structure World (δ M : Type) where
  devices : δ
  memory : M
  /-- The processor accepts interrupts. -/
  interrupts : Bool

variable {δ M γ : Type} {α β : Type}

/-- One access of a program. -/
inductive Access (M : Type) where
  | read (port : BitVec 16) (value : BitVec 8)
  | write (port : BitVec 16) (value : BitVec 8)
  | load (memory : M)
  | store (update : M → M)
  | flag (enabled : Bool)

/-- The next access of a program, if its next step is one. -/
def access (bus : Bus δ) (world : World δ M) : Program M α → Option (Access M)
  | .inb port _ => some (.read port (bus.inb port world.devices).1)
  | .outb port value _ => some (.write port value)
  | .load _ => some (.load world.memory)
  | .store update _ => some (.store update)
  | .flag enabled _ => some (.flag enabled)
  | _ => none

/-- What an access does. -/
def perform (bus : Bus δ) (world : World δ M) : Access M → World δ M
  | .read port _ => { world with devices := (bus.inb port world.devices).2 }
  | .write port value => { world with devices := bus.outb port value world.devices }
  | .load _ => world
  | .store update => { world with memory := update world.memory }
  | .flag enabled => { world with interrupts := enabled }

/-- What is left of a program after one step. A program that waits stays where it is. -/
def advance (bus : Bus δ) (world : World δ M) : Program M α → Program M α
  | .done value => .done value
  | .inb port next => next (bus.inb port world.devices).1
  | .outb _ _ next => next
  | .load next => next world.memory
  | .store _ next => next
  | .halt next => .halt next
  | .flag _ next => next
  | .loop body next => body.bind fun again => if again then .loop body next else next
  | .abort => .abort

/-- One step. -/
def step (bus : Bus δ) (program : Program M α) (world : World δ M) :
    Program M α × World δ M :=
  (advance bus world program,
    match access bus world program with
    | some event => perform bus world event
    | none => world)

/-! ## Uninterrupted runs -/

/-- The program, run alone, ends with a value. -/
inductive Completes (bus : Bus δ) {α : Type} : Program M α → World δ M → α → World δ M → Prop where
  | done (value : α) (world : World δ M) : Completes bus (.done value) world value world
  | step {program : Program M α} {world after : World δ M} {value : α}
      (rest : Completes bus (step bus program world).1 (step bus program world).2 value after) :
      Completes bus program world value after

section

variable {bus : Bus δ} {world after final : World δ M}

/-- A step of the first of two programs in sequence. -/
theorem step_bind {program : Program M α} (rest : α → Program M β)
    (h : ∀ value, program ≠ .done value) :
    step bus (program.bind rest) world =
      ((step bus program world).1.bind rest, (step bus program world).2) := by
  cases program with
  | done value => exact absurd rfl (h value)
  | loop body next =>
      refine Prod.ext ?_ rfl
      show body.bind _ = (body.bind _).bind rest
      rw [Program.bind_assoc]
      congr 1
      funext again
      cases again <;> rfl
  | _ => rfl

/-- Two programs in sequence. -/
theorem Completes.bind {program : Program M α} {rest : α → Program M β} {value : α} {result : β}
    (h : Completes bus program world value after)
    (hrest : Completes bus (rest value) after result final) :
    Completes bus (program.bind rest) world result final := by
  induction h with
  | done value world => exact hrest
  | @step program world after value _ ih =>
      by_cases hdone : ∃ value, program = .done value
      · obtain ⟨value, rfl⟩ := hdone
        exact ih hrest
      · refine .step ?_
        rw [step_bind rest fun value heq => hdone ⟨value, heq⟩]
        exact ih hrest

/-- The last turn of a loop. -/
theorem Completes.loop_end {body : Program M Bool} {next : Program M α} {value : α}
    (hbody : Completes bus body world false after) (hnext : Completes bus next after value final) :
    Completes bus (.loop body next) world value final :=
  .step (hbody.bind hnext)

/-- The run of a program without loops. -/
def exec (bus : Bus δ) : {α : Type} → Program M α → World δ M → Option (α × World δ M)
  | _, .done value, world => some (value, world)
  | _, .inb port next, world =>
      exec bus (next (bus.inb port world.devices).1)
        { world with devices := (bus.inb port world.devices).2 }
  | _, .outb port value next, world =>
      exec bus next { world with devices := bus.outb port value world.devices }
  | _, .load next, world => exec bus (next world.memory) world
  | _, .store update next, world => exec bus next { world with memory := update world.memory }
  | _, .flag enabled next, world => exec bus next { world with interrupts := enabled }
  | _, _, _ => none

/-- A program that is executed completes. -/
theorem Completes.of_exec {program : Program M α} {value : α}
    (h : exec bus program world = some (value, after)) :
    Completes bus program world value after := by
  induction program generalizing world with
  | done result =>
      obtain ⟨rfl, rfl⟩ := Prod.mk.inj (Option.some.inj h)
      exact .done _ _
  | inb port next ih => exact .step (ih _ h)
  | outb port written next ih => exact .step (ih h)
  | load next ih => exact .step (ih _ h)
  | store update next ih => exact .step (ih h)
  | flag enabled next ih => exact .step (ih h)
  | halt | loop | abort => cases h

end

/-! ## Protocols -/

/-- An automaton over the accesses of a program. -/
structure Protocol (M γ : Type) where
  next : γ → Access M → γ
  allowed : γ → Access M → Prop
  /-- The program may wait for an interrupt. -/
  waits : γ → Prop
  /-- What the program counts on when it reads a port. -/
  relies : γ → BitVec 16 → BitVec 8 → Prop
  /-- The values that a polling program is waiting for. -/
  awaited : BitVec 16 → BitVec 8 → Prop

variable (protocol : Protocol M γ)

/-- When the reads give what is awaited, the program comes to a wait for an interrupt, or to an end
that meets `post`. -/
def Stops : {α : Type} → Program M α → (α → γ → Prop) → γ → Prop
  | _, .done value, post, ghost => post value ghost
  | _, .inb port next, post, ghost =>
      ∀ value, protocol.relies ghost port value → protocol.awaited port value →
        Stops (next value) post (protocol.next ghost (.read port value))
  | _, .outb port value next, post, ghost =>
      Stops next post (protocol.next ghost (.write port value))
  | _, .load next, post, ghost =>
      ∀ memory, Stops (next memory) post (protocol.next ghost (.load memory))
  | _, .store update next, post, ghost => Stops next post (protocol.next ghost (.store update))
  | _, .halt _, _, _ => True
  | _, .flag enabled next, post, ghost => Stops next post (protocol.next ghost (.flag enabled))
  | _, .loop body next, post, ghost =>
      Stops body (fun again ghost => again = false ∧ Stops next post ghost) ghost
  | _, .abort, _, _ => False

/-- Whatever the program reads, it keeps to the protocol from `ghost` on, its result and the state
of the automaton then meet `post`, and each turn of a loop is the last one when its reads give what
is awaited. -/
def Meets : {α : Type} → Program M α → (α → γ → Prop) → γ → Prop
  | _, .done value, post, ghost => post value ghost
  | _, .inb port next, post, ghost =>
      ∀ value, protocol.relies ghost port value →
        protocol.allowed ghost (.read port value) ∧
          Meets (next value) post (protocol.next ghost (.read port value))
  | _, .outb port value next, post, ghost =>
      protocol.allowed ghost (.write port value) ∧
        Meets next post (protocol.next ghost (.write port value))
  | _, .load next, post, ghost =>
      ∀ memory, protocol.allowed ghost (.load memory) ∧
        Meets (next memory) post (protocol.next ghost (.load memory))
  | _, .store update next, post, ghost =>
      protocol.allowed ghost (.store update) ∧
        Meets next post (protocol.next ghost (.store update))
  | _, .halt next, post, ghost => protocol.waits ghost ∧ Meets next post ghost
  | _, .flag enabled next, post, ghost =>
      protocol.allowed ghost (.flag enabled) ∧
        Meets next post (protocol.next ghost (.flag enabled))
  | _, .loop body next, post, ghost =>
      ∃ inv : γ → Prop, inv ghost ∧ ∀ ghost, inv ghost →
        Meets body (fun again ghost => if again then inv ghost else Meets next post ghost) ghost ∧
          Stops protocol body (fun again _ => again = false) ghost
  | _, .abort, _, _ => False

variable {protocol} {program : Program M α} {post : α → γ → Prop} {ghost : γ}

/-- A weaker postcondition. -/
theorem Stops.mono {weaker : α → γ → Prop} (hpost : ∀ value ghost, post value ghost →
    weaker value ghost) (h : Stops protocol program post ghost) :
    Stops protocol program weaker ghost := by
  induction program generalizing ghost with
  | done value => exact hpost value ghost h
  | inb port next ih =>
      exact fun value hrelies hawaited => ih value hpost (h value hrelies hawaited)
  | outb port value next ih => exact ih hpost h
  | load next ih => exact fun memory => ih memory hpost (h memory)
  | store update next ih => exact ih hpost h
  | halt next => trivial
  | flag enabled next ih => exact ih hpost h
  | loop body next ihbody ih =>
      exact ihbody (fun again ghost hagain => ⟨hagain.1, ih hpost hagain.2⟩) h
  | abort => exact h

/-- Two facts about the end of a program. -/
theorem Stops.and {other : α → γ → Prop} (h : Stops protocol program post ghost)
    (hother : Stops protocol program other ghost) :
    Stops protocol program (fun value ghost => post value ghost ∧ other value ghost) ghost := by
  induction program generalizing ghost with
  | done value => exact ⟨h, hother⟩
  | inb port next ih =>
      exact fun value hrelies hawaited => ih value (h value hrelies hawaited)
        (hother value hrelies hawaited)
  | outb port value next ih => exact ih h hother
  | load next ih => exact fun memory => ih memory (h memory) (hother memory)
  | store update next ih => exact ih h hother
  | halt next => trivial
  | flag enabled next ih => exact ih h hother
  | loop body next ihbody ih =>
      refine (ihbody h hother).mono ?_
      rintro again ghost ⟨⟨hagain, hnext⟩, -, hthen⟩
      exact ⟨hagain, ih hnext hthen⟩
  | abort => exact h

/-- A weaker postcondition. -/
theorem Meets.mono {weaker : α → γ → Prop} (hpost : ∀ value ghost, post value ghost →
    weaker value ghost) (h : Meets protocol program post ghost) :
    Meets protocol program weaker ghost := by
  induction program generalizing ghost with
  | done value => exact hpost value ghost h
  | inb port next ih =>
      exact fun value hrelies => ⟨(h value hrelies).1, ih value hpost (h value hrelies).2⟩
  | outb port value next ih => exact ⟨h.1, ih hpost h.2⟩
  | load next ih => exact fun memory => ⟨(h memory).1, ih memory hpost (h memory).2⟩
  | store update next ih => exact ⟨h.1, ih hpost h.2⟩
  | halt next ih => exact ⟨h.1, ih hpost h.2⟩
  | flag enabled next ih => exact ⟨h.1, ih hpost h.2⟩
  | loop body next ihbody ih =>
      obtain ⟨inv, hinv, hbody⟩ := h
      refine ⟨inv, hinv, fun ghost hghost => ⟨ihbody (fun again ghost hagain => ?_)
        (hbody ghost hghost).1, (hbody ghost hghost).2⟩⟩
      cases again with
      | true => exact hagain
      | false => exact ih hpost hagain
  | abort => exact h

/-- Two programs in sequence. -/
theorem Meets.bind {rest : α → Program M β} {post : β → γ → Prop}
    (h : Meets protocol program (fun value => Meets protocol (rest value) post) ghost) :
    Meets protocol (program.bind rest) post ghost := by
  induction program generalizing ghost with
  | done value => exact h
  | inb port next ih =>
      exact fun value hrelies => ⟨(h value hrelies).1, ih value (h value hrelies).2⟩
  | outb port value next ih => exact ⟨h.1, ih h.2⟩
  | load next ih => exact fun memory => ⟨(h memory).1, ih memory (h memory).2⟩
  | store update next ih => exact ⟨h.1, ih h.2⟩
  | halt next ih => exact ⟨h.1, ih h.2⟩
  | flag enabled next ih => exact ⟨h.1, ih h.2⟩
  | loop body next _ ih =>
      obtain ⟨inv, hinv, hbody⟩ := h
      refine ⟨inv, hinv, fun ghost hghost => ⟨(hbody ghost hghost).1.mono ?_,
        (hbody ghost hghost).2⟩⟩
      intro again ghost hagain
      cases again with
      | true => exact hagain
      | false => exact ih hagain
  | abort => exact h

/-- A loop with an invariant. -/
theorem Meets.loop (inv : γ → Prop) (hinv : inv ghost) {body : Program M Bool}
    {next : Program M α}
    (hbody : ∀ ghost, inv ghost → Meets protocol body
      (fun again ghost => if again then inv ghost else Meets protocol next post ghost) ghost)
    (hstops : ∀ ghost, inv ghost → Stops protocol body (fun again _ => again = false) ghost) :
    Meets protocol (.loop body next) post ghost :=
  ⟨inv, hinv, fun ghost hghost => ⟨hbody ghost hghost, hstops ghost hghost⟩⟩

/-- A program that keeps to a protocol stops. -/
theorem Meets.stops (h : Meets protocol program post ghost) :
    Stops protocol program post ghost := by
  induction program generalizing ghost with
  | done value => exact h
  | inb port next ih => exact fun value hrelies _ => ih value (h value hrelies).2
  | outb port value next ih => exact ih h.2
  | load next ih => exact fun memory => ih memory (h memory).2
  | store update next ih => exact ih h.2
  | halt next => trivial
  | flag enabled next ih => exact ih h.2
  | loop body next ihbody ih =>
      obtain ⟨inv, hinv, hbody⟩ := h
      obtain ⟨hmeets, hstops⟩ := hbody ghost hinv
      refine (hstops.and (ihbody hmeets)).mono ?_
      rintro _ ghost ⟨rfl, hnext⟩
      exact ⟨rfl, ih hnext⟩
  | abort => exact h

/-- The state of the automaton after an access, if there was one. -/
def Protocol.after (protocol : Protocol M γ) (ghost : γ) : Option (Access M) → γ
  | some event => protocol.next ghost event
  | none => ghost

/-- A step of a program that keeps to a protocol is allowed, and what is left of the program keeps
to the protocol. -/
theorem Meets.step (h : Meets protocol program post ghost) (bus : Bus δ) (world : World δ M)
    (hrelies : ∀ port, protocol.relies ghost port (bus.inb port world.devices).1) :
    (∀ event, access bus world program = some event → protocol.allowed ghost event) ∧
      Meets protocol (advance bus world program) post
        (protocol.after ghost (access bus world program)) := by
  cases program with
  | done value => exact ⟨fun _ hnone => (nomatch hnone), h⟩
  | inb port next =>
      obtain ⟨hallowed, hnext⟩ := h _ (hrelies port)
      refine ⟨fun event hevent => ?_, hnext⟩
      obtain rfl := Option.some.inj hevent
      exact hallowed
  | outb port value next =>
      refine ⟨fun event hevent => ?_, h.2⟩
      obtain rfl := Option.some.inj hevent
      exact h.1
  | load next =>
      refine ⟨fun event hevent => ?_, (h _).2⟩
      obtain rfl := Option.some.inj hevent
      exact (h _).1
  | store update next =>
      refine ⟨fun event hevent => ?_, h.2⟩
      obtain rfl := Option.some.inj hevent
      exact h.1
  | halt next => exact ⟨fun _ hnone => (nomatch hnone), h⟩
  | flag enabled next =>
      refine ⟨fun event hevent => ?_, h.2⟩
      obtain rfl := Option.some.inj hevent
      exact h.1
  | loop body next =>
      refine ⟨fun _ hnone => (nomatch hnone), ?_⟩
      obtain ⟨inv, hinv, hbody⟩ := h
      refine Meets.bind ((hbody ghost hinv).1.mono ?_)
      intro again ghost hagain
      cases again with
      | true => exact ⟨inv, hagain, hbody⟩
      | false => exact hagain
  | abort => exact h.elim

/-- An interrupt does not change what a waiting program does next. -/
theorem Meets.wake (h : Meets protocol program post ghost) :
    Meets protocol program.wake post ghost := by
  cases program with
  | halt next => exact h.2
  | _ => exact h

end PortPrograms
