import Mathlib.Data.Int.Basic
import Rosbridge.Library.Machine

/-!
# The ping/pong watchdog (`Connection::connect`)

One session of `connect`: the handlers of the two timers and of the pongs on their threads, with the
times they read from the clock. `handler_ping` sends and then stamps, so a pong can come in between.

The check measures the distance from the last pong to the last ping. While a ping is unanswered
that is the time from an earlier pong, or from the beginning of `connect`, to this ping.
-/

namespace Rosbridge.Watchdog

/-- `std::chrono::seconds`, in ticks of the clock. -/
def max_ping_pong_interval (max_ping_pong_seconds : Int32) : Int := max_ping_pong_seconds.toInt * 1000000000

inductive ConnectionState where
  | connecting
  | opened
  | closed
  deriving DecidableEq, Repr

structure Ping where
  number : Nat
  sent : Int

/-- `stamping` is `handler_ping` after `c.ping`. No handler reads the fields from `now` on: the
pings that have no pong yet, whether a pong came after the last stamp, and how long before that
stamp the last pong, or the beginning, was. -/
structure State where
  connection : ConnectionState := .connecting
  time_last_ping : Int
  time_last_pong : Int
  stamping : Bool := false
  close_called : Bool := false
  now : Int
  pings : Nat := 0
  unanswered : List Ping := []
  answered : Bool := false
  gap : Int

inductive Action where
  | opened
  | closed
  | ping
  | stamp
  | pong (number : Nat)
  | check
  deriving DecidableEq, Repr

structure Event where
  time : Int
  action : Action
  deriving DecidableEq, Repr

/-- `c.ping` throws unless the websocket is open, and the handler swallows that. -/
def ping (s : State) : State :=
  if s.connection = .opened ∧ s.stamping = false then
    { s with stamping := true, pings := s.pings + 1, unanswered := s.unanswered ++ [⟨s.pings, s.now⟩] }
  else s

def stamp (s : State) : State :=
  if s.stamping then
    { s with time_last_ping := s.now, stamping := false, answered := false, gap := s.now - s.time_last_pong }
  else s

def handler_pong (s : State) (number : Nat) : State :=
  { s with
    time_last_pong := s.now
    unanswered := s.unanswered.filter fun p => p.number ≠ number
    answered := true }

def handler_ping_pong_check (max : Int) (s : State) : State :=
  if s.time_last_ping - s.time_last_pong > max then { s with connection := .closed, close_called := true }
  else s

def act (max : Int) (s : State) : Action → State
  | .opened => if s.connection = .connecting then { s with connection := .opened } else s
  | .closed => { s with connection := .closed }
  | .ping => ping s
  | .stamp => stamp s
  | .pong number => handler_pong s number
  | .check => handler_ping_pong_check max s

def step (max : Int) (s : State) (e : Event) : State := act max { s with now := e.time } e.action

abbrev run (max : Int) (s : State) (events : List Event) : State := Machine.run (step max) s events

/-- The two stamps are initialised one after the other. -/
def start (time : Int) (delay : Nat) : State where
  time_last_ping := time
  time_last_pong := time + delay
  now := time + delay
  gap := -delay

/-- The clock does not go back. -/
def Timed (s : State) (e : Event) : Prop := s.now ≤ e.time

def Healthy (max : Int) (s : State) (e : Event) : Prop :=
  s.now ≤ e.time ∧ ∀ p ∈ s.unanswered, e.time ≤ p.sent + max

/-- The check does not run while a ping is unanswered that was stamped more than the interval after
the pong before it, or after the beginning. -/
def Punctual (max : Int) (s : State) (e : Event) : Prop :=
  e.action = .check → s.answered = true ∨ s.gap ≤ max

instance (s : State) (e : Event) : Decidable (Timed s e) := inferInstanceAs (Decidable (_ ≤ _))

instance (max : Int) (s : State) (e : Event) : Decidable (Healthy max s e) :=
  inferInstanceAs (Decidable (_ ∧ _))

instance (max : Int) (s : State) (e : Event) : Decidable (Punctual max s e) :=
  inferInstanceAs (Decidable (_ → _))

structure Stamped (s : State) : Prop where
  past : s.time_last_ping ≤ s.now
  answered : s.answered = true → s.time_last_ping ≤ s.time_last_pong
  waiting : s.answered = false → s.time_last_ping - s.time_last_pong = s.gap

theorem stamped_start (time : Int) (delay : Nat) : Stamped (start time delay) where
  past := by
    show time ≤ time + delay
    omega
  answered answered := by cases answered
  waiting _ := by
    show time - (time + delay) = -delay
    omega

theorem stamped_step {max : Int} {s : State} {e : Event} (h : Stamped s) (timed : Timed s e) :
    Stamped (step max s e) := by
  obtain ⟨past, answered, waiting⟩ := h
  have later : s.time_last_ping ≤ e.time := Int.le_trans past timed
  unfold step
  cases action : e.action with
  | opened =>
    simp only [act]
    split <;> exact ⟨later, answered, waiting⟩
  | closed => exact ⟨later, answered, waiting⟩
  | ping =>
    simp only [act, ping]
    split <;> exact ⟨later, answered, waiting⟩
  | stamp =>
    simp only [act, stamp]
    split
    · exact ⟨Int.le_refl _, by simp, fun _ => rfl⟩
    · exact ⟨later, answered, waiting⟩
  | pong number => exact ⟨later, fun _ => later, by simp [act, handler_pong]⟩
  | check =>
    simp only [act, handler_ping_pong_check]
    split <;> exact ⟨later, answered, waiting⟩

/-- The check closes the websocket exactly when it is not punctual. -/
theorem close_called_step {max : Int} (nonneg : 0 ≤ max) {s : State} {e : Event} (h : Stamped s) :
    (step max s e).close_called = false ↔ s.close_called = false ∧ Punctual max s e := by
  obtain ⟨-, answered, waiting⟩ := h
  unfold step Punctual
  cases action : e.action with
  | opened =>
    simp only [act]
    split <;> simp
  | closed => simp [act]
  | ping =>
    simp only [act, ping]
    split <;> simp
  | stamp =>
    simp only [act, stamp]
    split <;> simp
  | pong number => simp [act, handler_pong]
  | check =>
    have closes : s.time_last_ping - s.time_last_pong > max ↔ ¬ (s.answered = true ∨ s.gap ≤ max) := by
      cases answers : s.answered with
      | true =>
        have order := answered answers
        simp only [true_or, not_true_eq_false, iff_false]
        omega
      | false =>
        have distance := waiting answers
        simp only [Bool.false_eq_true, false_or]
        omega
    simp only [act, handler_ping_pong_check]
    split
    · rename_i late
      simp [closes.mp late]
    · rename_i early
      simp [not_not.mp (mt closes.mpr early)]

/-- The watchdog leaves a connection alone exactly when every check is punctual, whether the pings
are answered in time or not. -/
theorem drops_only_the_unpunctual {max : Int} (nonneg : 0 ≤ max) (time : Int) (delay : Nat)
    {events : List Event} (timed : Machine.Along (step max) Timed (start time delay) events) :
    (run max (start time delay) events).close_called = false ↔
      Machine.Along (step max) (Punctual max) (start time delay) events := by
  have keep : ∀ (s : State) (e : Event), Stamped s → Timed s e → Stamped (step max s e) :=
    fun s e h => stamped_step h
  have whole := @Machine.run_iff_along State Event (step max) Stamped (fun s => s.close_called = false)
    Timed (Punctual max) keep (fun s e h _ => close_called_step nonneg h) _ events
    (stamped_start time delay) timed
  exact whole.trans (and_iff_right rfl)

def default_interval : Int := max_ping_pong_interval 2

/-- The websocket opens three seconds after `connect` began. The first ping is answered after fifty
milliseconds, and the check runs before that. -/
def slowOpening : List Event :=
  [⟨3000000000, .opened⟩, ⟨3000000000, .ping⟩, ⟨3000001000, .stamp⟩, ⟨3000002000, .check⟩,
    ⟨3050000000, .pong 0⟩]

theorem slow_opening_is_dropped :
    Machine.Along (step default_interval) (Healthy default_interval) (start 0 0) slowOpening ∧
      (run default_interval (start 0 0) slowOpening).pings = 1 ∧
      (run default_interval (start 0 0) slowOpening).unanswered.length = 0 ∧
      (run default_interval (start 0 0) slowOpening).close_called = true := by
  decide +kernel

/-- Two pings, a second apart; the second is unanswered when the check runs. -/
def promptPongs : List Event :=
  [⟨1000000, .opened⟩, ⟨2000000, .ping⟩, ⟨2001000, .stamp⟩, ⟨52000000, .pong 0⟩,
    ⟨1002000000, .ping⟩, ⟨1002001000, .stamp⟩, ⟨1002002000, .check⟩, ⟨1052000000, .pong 1⟩]

theorem drops_only_the_unpunctual_prompt :
    (run default_interval (start 0 1000) promptPongs).close_called = false :=
  have timed : Machine.Along (step default_interval) Timed (start 0 1000) promptPongs := by
    decide +kernel
  have nonneg : 0 ≤ default_interval := by decide
  (drops_only_the_unpunctual nonneg 0 1000 timed).mpr (by decide +kernel)

end Rosbridge.Watchdog
