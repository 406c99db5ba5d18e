import Rosbridge.Access
import Rosbridge.Destruction

/-!
# The destructors return

A destructor waits for the thread of its endpoint, and the thread may be anywhere in its loop when
`shutdown_requested` is set. It gets to the test of the flag in a bounded number of its own steps,
whatever is pushed to its queue in the meantime.
-/

namespace Rosbridge

open Talk

namespace Listen

/-- At most so many steps of the thread until it ends, once `shutdown_requested` is set. -/
def Pc.left : Pc → Nat
  | .empty => 6
  | .next => 5
  | .payload _ => 4
  | .callback _ _ => 3
  | .pop _ => 2
  | .check => 1
  | _ => 0

theorem Pc.left_le (pc : Pc) : pc.left ≤ 6 := by
  cases pc <;> simp [left]

theorem left_listener (kind : Kind) {s : State} (flag : s.shutdown_requested = true) (returned : Option Object) :
    (listener kind s returned).pc.left ≤ s.pc.left - 1 := by
  unfold listener
  cases pc : s.pc with
  | check =>
    rw [if_pos flag]
    exact Nat.le_refl _
  | empty =>
    dsimp only
    split
    · simp [Pc.left]
    · exact Nat.le_refl _
  | next =>
    dsimp only
    split
    · exact Nat.zero_le _
    · exact Nat.le_refl _
  | payload x =>
    dsimp only
    split
    · exact Nat.le_refl _
    · exact Nat.zero_le _
    · simp [Pc.left]
  | callback x payload =>
    dsimp only
    split
    · exact Nat.le_refl _
    · exact Nat.zero_le _
    · split <;> exact Nat.le_refl _
    · exact Nat.le_refl _
  | pop x =>
    dsimp only
    split
    · exact Nat.le_refl _
    · exact Nat.zero_le _
  | done | terminated | undefined => simp [pc, Pc.left]

theorem ended_of_left {s : State} (defined : s.pc ≠ .undefined) (none : s.pc.left = 0) :
    s.pc = .done ∨ s.pc = .terminated := by
  cases pc : s.pc with
  | done => exact .inl rfl
  | terminated => exact .inr rfl
  | undefined => exact absurd pc defined
  | _ =>
    rw [pc] at none
    cases none

/-- `ServiceServer::listener` catches whatever is thrown. -/
theorem server_survives {service : Bytes} {s : State} {returned : Option Object} (alive : s.pc ≠ .terminated) :
    (listener (.serviceServer service) s returned).pc ≠ .terminated := by
  unfold listener
  cases pc : s.pc with
  | payload x =>
    dsimp only
    split
    · exact nofun
    · rename_i other
      cases other
    · exact nofun
  | callback x payload =>
    dsimp only
    split
    · rename_i other
      cases other
    · rename_i other
      cases other
    · split <;> exact nofun
    · exact nofun
  | terminated => exact absurd pc alive
  | done | undefined =>
    rw [pc]
    exact nofun
  | _ =>
    dsimp only
    split <;> exact nofun

theorem stocked_start (queue_size : Int32) : Stocked (start queue_size) := by
  constructor <;> simp [start, ListenerQueue.new, NeverReadsEmpty, Pc.uses]

end Listen

/-- The steps that the destructor still takes. -/
def Stage.left : Stage → Nat
  | .unborn => 6
  | .alive _ => 5
  | .shutdown _ => 4
  | .pushed _ => 3
  | .joined _ => 2
  | .abandoned _ => 1
  | .returned _ => 0

namespace Lifetime

def Event.isListener : Event → Bool
  | .listener _ => true
  | _ => false

def Event.isDestructor : Event → Bool
  | .destructor _ => true
  | _ => false

structure Mortal (e : Endpoint) (l : Listen.State) (stage : Stage) : Prop where
  late : l.shutdown_requested = true → stage.left ≤ 4
  stocked : Listen.Stocked l
  spared : l.pc = .terminated → ∃ s, e = .subscriber s

section Threads

variable {e : Endpoint} {l l' : Listen.State} {stage stage' : Stage}

theorem mortal_step (h : Mortal e l stage) (threads : Threads e l stage l' stage') : Mortal e l' stage' := by
  obtain ⟨late, stocked, spared⟩ := h
  cases threads with
  | rests => exact ⟨late, stocked, spared⟩
  | starts i unborn => exact ⟨nofun, Listen.stocked_start _, nofun⟩
  | hears msg => exact ⟨late, Listen.stocked_push stocked msg, spared⟩
  | moves kind returned threaded =>
    refine ⟨?_, Listen.stocked_listener stocked kind returned, fun now => ?_⟩
    · rw [Listen.listener_shutdown]
      exact late
    · cases e with
      | publisher p => cases threaded
      | subscriber s => exact ⟨s, rfl⟩
      | serviceServer s =>
        obtain rfl := Option.some.inj threaded
        by_cases dead : l.pc = .terminated
        · exact spared dead
        · exact absurd now (Listen.server_survives dead)
  | flags i alive => exact ⟨fun _ => Nat.le_refl _, ⟨stocked.bounded, stocked.safe⟩, spared⟩
  | withdraws i shutdown => exact ⟨fun _ => by simp [Stage.left], stocked, spared⟩
  | joins i pushed ended => exact ⟨fun _ => by simp [Stage.left], stocked, spared⟩
  | abandons i joined => exact ⟨fun _ => by simp [Stage.left], stocked, spared⟩
  | returns i abandoned => exact ⟨fun _ => Nat.zero_le _, ⟨stocked.bounded, stocked.safe⟩, spared⟩

end Threads

theorem mortal_run (e : Endpoint) (events : List Event) :
    Mortal e (run e start events).thread (run e start events).stage := by
  apply threads_run
  · exact fun l stage l' stage' h threads => mortal_step h threads
  · exact ⟨nofun, Listen.stocked_start _, nofun⟩

/-! ### The thread ends -/

theorem index_of_late {stage : Stage} (late : stage.left ≤ 4) : ∃ i, stage.index = some i := by
  cases stage with
  | unborn => simp [Stage.left] at late
  | alive i => simp [Stage.left] at late
  | _ => exact ⟨_, rfl⟩

structure Dying (e : Endpoint) (s : Lifetime) : Prop where
  mortal : Mortal e s.thread s.stage
  flag : s.thread.shutdown_requested = true

theorem Dying.born {e : Endpoint} {s : Lifetime} (h : Dying e s) : s.stage.index ≠ none := by
  obtain ⟨i, here⟩ := index_of_late (h.mortal.late h.flag)
  simp [here]

/-- The flag stays, and no step brings the thread back. -/
theorem dying_threads {e : Endpoint} {l l' : Listen.State} {stage stage' : Stage}
    (flag : l.shutdown_requested = true) (born : stage.index ≠ none) (threads : Threads e l stage l' stage') :
    l'.shutdown_requested = true ∧ l'.pc.left ≤ l.pc.left := by
  cases threads with
  | starts i unborn => exact absurd unborn born
  | moves kind returned threaded =>
    refine ⟨by rwa [Listen.listener_shutdown], ?_⟩
    exact (Listen.left_listener kind flag returned).trans (Nat.sub_le _ _)
  | flags i alive => exact ⟨rfl, Nat.le_refl _⟩
  | _ => exact ⟨flag, Nat.le_refl _⟩

theorem dying_step {e : Endpoint} {s : Lifetime} (h : Dying e s) (event : Event) : Dying e (step e s event) where
  mortal := mortal_step h.mortal (threads_step e s event)
  flag := (dying_threads h.flag h.born (threads_step e s event)).1

theorem listener_left {e : Endpoint} {kind : Listen.Kind} {s : Lifetime} (h : Dying e s)
    (threaded : e.kind = some kind) (returned : Option Object) :
    (step e s (.listener returned)).thread.pc.left ≤ s.thread.pc.left - 1 := by
  obtain ⟨i, here⟩ := index_of_late (h.mortal.late h.flag)
  by_cases dead : s.thread.pc = .terminated
  · rw [show step e s (.listener returned) = s by simp [step, dead], dead]
    exact Nat.le_refl _
  · rw [show step e s (.listener returned) = listener e s returned by
      unfold step
      split
      · rename_i now
        exact absurd now dead
      · rfl]
    unfold listener
    rw [threaded, here]
    exact Listen.left_listener kind h.flag returned

theorem thread_left {e : Endpoint} {kind : Listen.Kind} {s : Lifetime} (threaded : e.kind = some kind)
    (h : Dying e s) (event : Event) :
    (step e s event).thread.pc.left ≤ s.thread.pc.left - if event.isListener then 1 else 0 := by
  cases event with
  | listener returned => exact listener_left h threaded returned
  | _ => exact (dying_threads h.flag h.born (threads_step e s _)).2

/-- The join can return, or an exception has ended the process. -/
def Ended (e : Endpoint) (l : Listen.State) : Prop := joinable e l = true ∨ l.pc = .terminated

theorem ended_run {e : Endpoint} {s : Lifetime} (h : Dying e s) {events : List Event}
    (enough : 6 ≤ events.countP Event.isListener) : Dying e (run e s events) ∧ Ended e (run e s events).thread := by
  have keep : ∀ (s : Lifetime) (event : Event), Dying e s → Dying e (step e s event) :=
    fun _ event h => dying_step h event
  have dying := Machine.invariant_run keep h events
  refine ⟨dying, ?_⟩
  cases threaded : e.kind with
  | none => exact .inl (by simp [joinable, threaded])
  | some kind =>
    have down : (run e s events).thread.pc.left ≤ s.thread.pc.left - events.countP Event.isListener :=
      Machine.rank_run (fun s : Lifetime => s.thread.pc.left) Event.isListener keep
        (fun _ event h => thread_left threaded h event) h events
    have most := s.thread.pc.left_le
    have none : (run e s events).thread.pc.left = 0 := by omega
    rcases Listen.ended_of_left dying.mortal.stocked.safe.1 none with done | dead
    · exact .inl (by simp [joinable, threaded, done])
    · exact .inr dead

/-! ### The destructor returns -/

structure Free (e : Endpoint) (s : Lifetime) : Prop where
  dying : Dying e s
  ended : Ended e s.thread

theorem ended_threads {e : Endpoint} {l l' : Listen.State} {stage stage' : Stage} (h : Ended e l)
    (born : stage.index ≠ none) (threads : Threads e l stage l' stage') : Ended e l' := by
  cases threads with
  | starts i unborn => exact absurd unborn born
  | moves kind returned threaded =>
    have same : Listen.listener kind l returned = l := by
      rcases h with joins | dead
      · exact listener_of_joinable threaded joins returned
      · simp [Listen.listener, dead]
    rw [same]
    exact h
  | _ => exact h

theorem free_step {e : Endpoint} {s : Lifetime} (h : Free e s) (event : Event) : Free e (step e s event) :=
  ⟨dying_step h.dying event, ended_threads h.ended h.dying.born (threads_step e s event)⟩

def left (s : Lifetime) : Nat :=
  match s.thread.pc with
  | .terminated => 0
  | _ => s.stage.left

theorem left_alive {s : Lifetime} (alive : s.thread.pc ≠ .terminated) : s.left = s.stage.left := by
  unfold left
  split
  · rename_i dead
    exact absurd dead alive
  · rfl

theorem left_le (s : Lifetime) : s.left ≤ s.stage.left := by
  unfold left
  split
  · exact Nat.zero_le _
  · exact Nat.le_refl _

theorem destructor_left {e : Endpoint} {s : Lifetime} (joins : joinable e s.thread = true) (id : Bytes) :
    (destructor e s id).stage.left ≤ s.stage.left - 1 ∨ s.stage = .unborn := by
  unfold destructor
  cases stage : s.stage with
  | unborn => exact .inr rfl
  | pushed i =>
    dsimp only
    rw [if_pos joins]
    exact .inl (Nat.le_refl _)
  | returned i => exact .inl (by simp [stage, Stage.left])
  | _ => exact .inl (Nat.le_refl _)

theorem stage_threads {e : Endpoint} {l l' : Listen.State} {stage stage' : Stage} (born : stage.index ≠ none)
    (threads : Threads e l stage l' stage') : stage'.left ≤ stage.left := by
  cases threads with
  | rests => exact Nat.le_refl _
  | starts i unborn => exact absurd unborn born
  | hears msg => exact Nat.le_refl _
  | moves kind returned threaded => exact Nat.le_refl _
  | flags i before => simp [before, Stage.left]
  | withdraws i before => simp [before, Stage.left]
  | joins i before ended => simp [before, Stage.left]
  | abandons i before => simp [before, Stage.left]
  | returns i before => simp [before, Stage.left]

theorem left_step {e : Endpoint} {s : Lifetime} (h : Free e s) (event : Event) :
    (step e s event).left ≤ s.left - if event.isDestructor then 1 else 0 := by
  by_cases dead : s.thread.pc = .terminated
  · rw [show step e s event = s by simp [step, dead], left, dead]
    exact Nat.zero_le _
  · rw [left_alive dead]
    refine (left_le _).trans ?_
    cases event with
    | destructor id =>
      rw [show step e s (.destructor id) = destructor e s id by
        unfold step
        split
        · rename_i now
          exact absurd now dead
        · rfl]
      rcases destructor_left (h.ended.resolve_right dead) id with less | unborn
      · exact less
      · exact absurd (by rw [unborn]; rfl) h.dying.born
    | _ => exact stage_threads h.dying.born (threads_step e s _)

theorem returned_of_left {e : Endpoint} {s : Lifetime} (dying : Dying e s) (none : s.left = 0) :
    (∃ i, s.stage = .returned i) ∨ s.thread.pc = .terminated ∧ ∃ sub, e = .subscriber sub := by
  by_cases dead : s.thread.pc = .terminated
  · exact .inr ⟨dead, dying.mortal.spared dead⟩
  · rw [left_alive dead] at none
    cases stage : s.stage with
    | returned i => exact .inl ⟨i, rfl⟩
    | _ =>
      rw [stage] at none
      cases none

/-- A destructor that has set `shutdown_requested` returns: the thread ends within six steps of its own, and
the destructor needs four more. Only an exception on the thread of a `Subscriber` comes before that. -/
theorem destructor_returns {e : Endpoint} {before waiting after : List Event}
    (begun : (run e start before).thread.shutdown_requested = true)
    (listens : 6 ≤ waiting.countP Event.isListener) (destroys : 4 ≤ after.countP Event.isDestructor) :
    let s := run e start (before ++ waiting ++ after)
    (∃ i, s.stage = .returned i) ∨ s.thread.pc = .terminated ∧ ∃ sub, e = .subscriber sub := by
  intro s
  have joined : run e start (before ++ waiting) = run e (run e start before) waiting := Machine.run_append _ _ _
  have whole : s = run e (run e start (before ++ waiting)) after := Machine.run_append _ _ _
  obtain ⟨dying, ended⟩ := ended_run ⟨mortal_run e before, begun⟩ listens
  rw [← joined] at dying ended
  have keep : ∀ (s : Lifetime) (event : Event), Free e s → Free e (step e s event) :=
    fun _ event h => free_step h event
  have free : Free e s := by
    rw [whole]
    exact Machine.invariant_run keep ⟨dying, ended⟩ after
  have down : s.left ≤ (run e start (before ++ waiting)).left - after.countP Event.isDestructor := by
    rw [whole]
    exact Machine.rank_run left Event.isDestructor keep (fun _ event h => left_step h event) ⟨dying, ended⟩ after
  have most := (left_le (run e start (before ++ waiting))).trans (dying.mortal.late dying.flag)
  exact returned_of_left free.dying (by omega)

/-- A request comes in for every step that the thread takes. -/
def busy : List Event := (List.replicate 6 [request, .listener (some .empty)]).flatten

theorem destructor_returns_busy :
    ∃ i, (run server start (overtaken ++ busy ++ destroys 4)).stage = .returned i := by
  have whole := @destructor_returns server overtaken busy (destroys 4) (by decide +kernel) (by decide +kernel)
    (by decide +kernel)
  rcases whole with returned | ⟨-, sub, other⟩
  · exact returned
  · cases other

end Lifetime

end Rosbridge
