import Rosbridge.Library.Machine

/-!
# The runner and its callbacks (`Connection::runner`, `Connection::connect`, `Connection::send`)

Each iteration of the runner owns a client and a connection, and installs two callbacks that refer
to them: `message_sender` in `runner`, `active` in `connect`. The timer thread calls whatever is
installed. A call is recorded with the iteration that installed the callback and whether what it
refers to was still in scope.

`connect` takes both callbacks back before it returns. When it is left otherwise, the runner takes
them back, after the scope of the client and the connection has ended.
-/

namespace Rosbridge.Runner

/-- How far the iteration has come, and from where it is left. -/
inductive Point where
  | entered
  | prepared
  | running
  | sender_cleared
  | cleared
  deriving DecidableEq, Repr

inductive Stage where
  | outside
  | inside (p : Point)
  | leaving (p : Point)
  | destroyed (p : Point)
  | sender_reset (p : Point)
  deriving DecidableEq, Repr

/-- Where the timer thread is in `talk` and the `send` that it calls. -/
inductive Pc where
  | talk
  | send
  | message_sender
  deriving DecidableEq, Repr

inductive Callback where
  | active
  | message_sender
  deriving DecidableEq, Repr

structure Invocation where
  callback : Callback
  installed_by : Nat
  in_scope : Bool
  deriving DecidableEq, Repr

/-- A callback that is not installed by an iteration is the one that does nothing. -/
structure State where
  stage : Stage := .outside
  iteration : Nat := 0
  active : Option Nat := none
  message_sender : Option Nat := none
  pc : Pc := .talk
  log : List Invocation := []

/-- `leaves` when an exception is thrown, or when `connect` does not find the connection connecting.
Of a callback that is installed, `answer` is what it returns; `more` says that `talk` finds a
message to send. -/
inductive Event where
  | runner (leaves : Bool)
  | timer (answer more : Bool)
  deriving DecidableEq, Repr

def advance (s : State) : Point → State
  | .entered => { s with stage := .inside .prepared, message_sender := some s.iteration }
  | .prepared => { s with stage := .inside .running, active := some s.iteration }
  | .running => { s with stage := .inside .sender_cleared, message_sender := none }
  | .sender_cleared => { s with stage := .inside .cleared, active := none }
  | .cleared => { s with stage := .leaving .cleared }

/-- While the iteration is left, the timers of `connect` are joined. -/
def runner (s : State) (leaves : Bool) : State :=
  match s.stage with
  | .outside => { s with stage := .inside .entered, iteration := s.iteration + 1 }
  | .inside p => if leaves then { s with stage := .leaving p } else advance s p
  | .leaving p => { s with stage := .destroyed p }
  | .destroyed p => { s with stage := .sender_reset p, message_sender := none }
  | .sender_reset _ => { s with stage := .outside, active := none }

def Stage.inScope : Stage → Bool
  | .inside _ => true
  | .leaving _ => true
  | _ => false

def State.alive (s : State) (iteration : Nat) : Bool := s.iteration = iteration && s.stage.inScope

def State.invoke (s : State) (callback : Callback) (installed : Option Nat) : List Invocation :=
  match installed with
  | none => s.log
  | some iteration => s.log ++ [⟨callback, iteration, s.alive iteration⟩]

def timer (s : State) (answer more : Bool) : State :=
  let active := s.active.isSome && answer
  match s.pc with
  | .talk =>
    { s with log := s.invoke .active s.active, pc := if active && more then .send else .talk }
  | .send =>
    { s with log := s.invoke .active s.active, pc := if active then .message_sender else .talk }
  | .message_sender => { s with log := s.invoke .message_sender s.message_sender, pc := .talk }

def step (s : State) : Event → State
  | .runner leaves => runner s leaves
  | .timer answer more => timer s answer more

abbrev run (s : State) (events : List Event) : State := Machine.run step s events

def start : State := {}

def CallsInScope (s : State) : Prop := ∀ x ∈ s.log, x.in_scope = true

/-! ### When a callback is stale -/

/-- `active` is installed from there on, and taken back before the next point but one. -/
def Point.hasActive : Point → Bool
  | .running => true
  | .sender_cleared => true
  | _ => false

def Point.hasSender : Point → Bool
  | .prepared => true
  | .running => true
  | _ => false

/-- `connect` was left while `active` was installed, the scope has ended, and the runner has not taken
`active` back. -/
def Stage.staleActive : Stage → Bool
  | .destroyed p => p.hasActive
  | .sender_reset p => p.hasActive
  | _ => false

def Stage.staleSender : Stage → Bool
  | .destroyed p => p.hasSender
  | _ => false

/-- The timer thread does not call a callback between the end of the scope of an iteration that was
left with the callback installed, and the reset by the runner. -/
def Spared (s : State) : Event → Prop
  | .runner _ => True
  | .timer _ _ =>
    match s.pc with
    | .talk => s.stage.staleActive = false
    | .send => s.stage.staleActive = false
    | .message_sender => s.stage.staleSender = false

instance (s : State) : (e : Event) → Decidable (Spared s e)
  | .runner _ => .isTrue trivial
  | .timer _ _ => by
    unfold Spared
    cases s.pc <;> dsimp only <;> infer_instance

/-! ### What is installed -/

def Stage.hasActive : Stage → Bool
  | .outside => false
  | .inside p => p.hasActive
  | .leaving p => p.hasActive
  | .destroyed p => p.hasActive
  | .sender_reset p => p.hasActive

def Stage.hasSender : Stage → Bool
  | .outside => false
  | .inside p => p.hasSender
  | .leaving p => p.hasSender
  | .destroyed p => p.hasSender
  | .sender_reset _ => false

structure Installed (s : State) : Prop where
  active : s.active = if s.stage.hasActive then some s.iteration else none
  message_sender : s.message_sender = if s.stage.hasSender then some s.iteration else none

theorem installed_start : Installed start := ⟨rfl, rfl⟩

theorem installed_advance {s : State} {p : Point} (h : Installed s) (inside : s.stage = .inside p) :
    Installed (advance s p) := by
  obtain ⟨active, message_sender⟩ := h
  rw [inside] at active message_sender
  cases p with
  | entered => exact ⟨active, rfl⟩
  | prepared => exact ⟨rfl, message_sender⟩
  | running => exact ⟨active, rfl⟩
  | sender_cleared => exact ⟨rfl, message_sender⟩
  | cleared => exact ⟨active, message_sender⟩

theorem installed_runner {s : State} (h : Installed s) (leaves : Bool) : Installed (runner s leaves) := by
  unfold runner
  cases stage : s.stage with
  | outside =>
    obtain ⟨active, message_sender⟩ := h
    rw [stage] at active message_sender
    exact ⟨active, message_sender⟩
  | inside p =>
    dsimp only
    split
    · obtain ⟨active, message_sender⟩ := h
      rw [stage] at active message_sender
      exact ⟨active, message_sender⟩
    · exact installed_advance h stage
  | leaving p =>
    obtain ⟨active, message_sender⟩ := h
    rw [stage] at active message_sender
    exact ⟨active, message_sender⟩
  | destroyed p =>
    obtain ⟨active, -⟩ := h
    rw [stage] at active
    exact ⟨active, rfl⟩
  | sender_reset p =>
    obtain ⟨-, message_sender⟩ := h
    rw [stage] at message_sender
    exact ⟨rfl, message_sender⟩

theorem installed_step {s : State} (h : Installed s) (e : Event) : Installed (step s e) := by
  cases e with
  | runner leaves => exact installed_runner h leaves
  | timer answer more =>
    unfold step timer
    cases s.pc <;> exact ⟨h.active, h.message_sender⟩

theorem stale_iff_active (stage : Stage) :
    (stage.hasActive = true → stage.inScope = true) ↔ stage.staleActive = false := by
  cases stage <;> simp [Stage.hasActive, Stage.inScope, Stage.staleActive]

theorem stale_iff_sender (stage : Stage) :
    (stage.hasSender = true → stage.inScope = true) ↔ stage.staleSender = false := by
  cases stage <;> simp [Stage.hasSender, Stage.inScope, Stage.staleSender]

/-- One more call keeps every call in scope exactly when what it calls is not stale. -/
theorem invoke_in_scope {s : State} (callback : Callback) {installed : Option Nat} {has stale : Bool}
    (installs : installed = if has then some s.iteration else none)
    (fresh : (has = true → s.stage.inScope = true) ↔ stale = false) :
    (∀ x ∈ s.invoke callback installed, x.in_scope = true) ↔ CallsInScope s ∧ stale = false := by
  rw [← fresh, installs]
  cases has with
  | false => simp [State.invoke, CallsInScope]
  | true =>
    have alive : s.alive s.iteration = s.stage.inScope := by simp [State.alive]
    simp only [↓reduceIte, State.invoke, alive, List.mem_append, List.mem_singleton, CallsInScope]
    constructor
    · intro every
      exact ⟨fun x old => every x (.inl old), fun _ => every _ (.inr rfl)⟩
    · rintro ⟨old, now⟩ x (member | rfl)
      · exact old x member
      · exact now trivial

theorem callsInScope_step {s : State} (h : Installed s) (e : Event) :
    CallsInScope (step s e) ↔ CallsInScope s ∧ Spared s e := by
  cases e with
  | runner leaves =>
    have same : (runner s leaves).log = s.log := by
      unfold runner
      split <;> (try split) <;> (try rfl)
      rename_i p _ _
      cases p <;> rfl
    simp only [step, CallsInScope, same, Spared, and_true]
  | timer answer more =>
    have active := invoke_in_scope .active h.active (stale_iff_active s.stage)
    have sender := invoke_in_scope .message_sender h.message_sender (stale_iff_sender s.stage)
    cases pc : s.pc with
    | talk => simpa only [step, timer, pc, Spared, CallsInScope] using active
    | send => simpa only [step, timer, pc, Spared, CallsInScope] using active
    | message_sender => simpa only [step, timer, pc, Spared, CallsInScope] using sender

/-- Every call is in scope exactly when the timer thread calls no callback that an abandoned
iteration has left behind. -/
theorem calls_in_scope_iff (events : List Event) :
    CallsInScope (run start events) ↔ Machine.Along step Spared start events := by
  have keep : ∀ (s : State) (e : Event), Installed s → True → Installed (step s e) :=
    fun s e h _ => installed_step h e
  have whole := @Machine.run_iff_along State Event step Installed CallsInScope (fun _ _ => True)
    Spared keep (fun s e h _ => callsInScope_step h e) start events installed_start
    (Machine.along_of_forall _ fun _ _ => trivial)
  exact whole.trans (and_iff_right (by simp [CallsInScope, start]))

/-- `c.run()` throws, and `talk` asks whether the connection is active before the runner takes
`active` back. -/
def abandoned : List Event :=
  [.runner false, .runner false, .runner false, .runner true, .runner true, .timer true true]

theorem abandoned_is_called :
    (run start abandoned).log = [⟨.active, 1, false⟩] ∧ ¬ CallsInScope (run start abandoned) := by
  have log : (run start abandoned).log = [⟨.active, 1, false⟩] := by decide
  refine ⟨log, fun every => ?_⟩
  have inScope := every ⟨.active, 1, false⟩ (by rw [log]; exact List.mem_singleton_self _)
  cases inScope

end Rosbridge.Runner
