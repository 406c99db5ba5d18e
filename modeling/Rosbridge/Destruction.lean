import Rosbridge.Lifetime

/-!
# The end of a receiver thread (`~Subscriber`, `~ServiceServer`)

`listener` tests `shutdown_requested` only between two messages, and the destructor joins the thread
before it returns. The listener queue stays attached to the client, which goes on pushing to it.
-/

namespace Rosbridge

open Talk

namespace Listen

/-! ### The calls that are left -/

/-- How many callbacks the thread still begins once `shutdown_requested` is set. -/
def Pc.budget : Pc → Nat
  | .empty => 1
  | .next => 1
  | .payload _ => 1
  | _ => 0

theorem Pc.budget_le (pc : Pc) : pc.budget ≤ 1 := by
  cases pc <;> simp [budget]

def begun (s : State) : Nat := (calls s.log).length

theorem begun_push (s : State) (msg : Unserializer) : begun (push s msg) = begun s := by
  rw [begun, calls_push, begun]

theorem begun_called (s : State) (x : Letter) (payload : Object) (pc : Pc) :
    begun { s with pc := pc, log := s.log ++ [.called x payload] } = begun s + 1 := by
  simp [begun, calls, Entry.called?]

theorem begun_other (s : State) {entry : Entry} (other : entry.called? = none) :
    (calls (s.log ++ [entry])).length = begun s := by
  simp [begun, calls, other]

/-- A step of the thread begins a callback only out of its budget. -/
theorem budget_listener (kind : Kind) {s : State} (flag : s.shutdown_requested = true)
    (returned : Option Object) :
    begun (listener kind s returned) + (listener kind s returned).pc.budget ≤ begun s + s.pc.budget := by
  unfold listener
  cases pc : s.pc with
  | check =>
    rw [if_pos flag]
    exact Nat.le_refl _
  | empty =>
    dsimp only
    split
    · exact Nat.le_succ _
    · exact Nat.le_refl _
  | next =>
    dsimp only
    split
    · exact Nat.le_succ _
    · exact Nat.le_refl _
  | payload x =>
    dsimp only
    split
    · rw [begun_called]
      exact Nat.le_refl _
    · exact Nat.le_succ _
    · exact Nat.le_succ _
  | callback x payload =>
    dsimp only
    split
    · exact Nat.le_refl _
    · exact Nat.le_refl _
    · split
      · rename_i msg _
        exact Nat.le_of_eq (begun_other s rfl)
      · exact Nat.le_refl _
    · exact Nat.le_refl _
  | pop x =>
    dsimp only
    split
    · exact Nat.le_of_eq (begun_other s rfl)
    · exact Nat.le_refl _
  | done => simp only [pc, Nat.le_refl]
  | terminated => simp only [pc, Nat.le_refl]
  | undefined => simp only [pc, Nat.le_refl]

end Listen

def Stage.settled : Stage → Bool
  | .joined _ => true
  | .abandoned _ => true
  | .returned _ => true
  | _ => false

namespace Lifetime

inductive Threads (e : Endpoint) (l : Listen.State) (stage : Stage) :
    Listen.State → Stage → Prop where
  | rests : Threads e l stage l stage
  | starts (i : Nat) (unborn : stage.index = none) :
      Threads e l stage (Listen.start e.listener_size) (.alive i)
  | hears (msg : Unserializer) : Threads e l stage (Listen.push l msg) stage
  | moves (kind : Listen.Kind) (returned : Option Object) (threaded : e.kind = some kind) :
      Threads e l stage (Listen.listener kind l returned) stage
  | flags (i : Nat) (alive : stage = .alive i) :
      Threads e l stage { l with shutdown_requested := true } (.shutdown i)
  | withdraws (i : Nat) (shutdown : stage = .shutdown i) : Threads e l stage l (.pushed i)
  | joins (i : Nat) (pushed : stage = .pushed i) (ended : joinable e l = true) :
      Threads e l stage l (.joined i)
  | abandons (i : Nat) (joined : stage = .joined i) : Threads e l stage l (.abandoned i)
  | returns (i : Nat) (abandoned : stage = .abandoned i) :
      Threads e l stage { l with queue := l.queue.abandon } (.returned i)

theorem threads_step (e : Endpoint) (s : Lifetime) (event : Event) :
    Threads e s.thread s.stage (step e s event).thread (step e s event).stage := by
  have acts : Threads e s.thread s.stage (act e s event).thread (act e s event).stage := by
    cases event with
    | client event =>
      unfold act
      dsimp only
      split <;> exact .rests
    | construct id =>
      unfold act construct
      dsimp only
      split
      · rename_i unborn
        split
        · exact .starts _ (by rw [unborn]; rfl)
        · exact .rests
      · exact .rests
    | publish json id =>
      unfold act
      dsimp only
      split <;> exact .rests
    | inbound msg =>
      unfold act
      dsimp only
      split
      · exact .hears msg
      · exact .rests
    | listener returned =>
      unfold act listener
      dsimp only
      split
      · rename_i kind i threaded _
        exact .moves kind returned threaded
      · exact .rests
    | destructor id =>
      unfold act destructor
      dsimp only
      split
      · exact .rests
      · rename_i i alive
        exact .flags i alive
      · rename_i i shutdown
        exact .withdraws i shutdown
      · rename_i i pushed
        split
        · rename_i ended
          exact .joins i pushed ended
        · exact .rests
      · rename_i i joined
        exact .abandons i joined
      · rename_i i abandoned
        exact .returns i abandoned
      · exact .rests
  unfold step
  split
  · exact .rests
  · exact acts

section Threads

variable {e : Endpoint} {l l' : Listen.State} {stage stage' : Stage}

/-! ### The join -/

structure Orderly (e : Endpoint) (l : Listen.State) (stage : Stage) : Prop where
  settled : stage.settled = true → joinable e l = true
  idle : e.kind = none → l.pc = .check

/-- A thread that has been joined takes no step. -/
theorem listener_of_joinable {kind : Listen.Kind} (threaded : e.kind = some kind)
    (ended : joinable e l = true) (returned : Option Object) : Listen.listener kind l returned = l := by
  have done : l.pc = .done := by
    unfold joinable at ended
    rw [threaded] at ended
    cases pc : l.pc with
    | done => rfl
    | _ => rw [pc] at ended; cases ended
  simp [Listen.listener, done]

theorem no_callback_of_joinable (orderly : Orderly e l stage) (ended : joinable e l = true)
    (x : Listen.Letter) (payload : Object) : l.pc ≠ .callback x payload := by
  intro pc
  unfold joinable at ended
  rw [pc] at ended
  cases threaded : e.kind with
  | none =>
    rw [orderly.idle threaded] at pc
    cases pc
  | some kind =>
    rw [threaded] at ended
    cases ended

theorem orderly_step (h : Orderly e l stage) (threads : Threads e l stage l' stage') :
    Orderly e l' stage' := by
  obtain ⟨settled, idle⟩ := h
  cases threads with
  | rests => exact ⟨settled, idle⟩
  | starts i unborn => exact ⟨nofun, fun _ => rfl⟩
  | hears msg => exact ⟨settled, idle⟩
  | moves kind returned threaded =>
    refine ⟨fun now => ?_, fun threadless => ?_⟩
    · rw [listener_of_joinable threaded (settled now)]
      exact settled now
    · rw [threaded] at threadless
      cases threadless
  | flags i alive => exact ⟨nofun, idle⟩
  | withdraws i shutdown => exact ⟨nofun, idle⟩
  | joins i pushed ended => exact ⟨fun _ => ended, idle⟩
  | abandons i joined => exact ⟨fun _ => settled (by rw [joined]; rfl), idle⟩
  | returns i abandoned => exact ⟨fun _ => settled (by rw [abandoned]; rfl), idle⟩

/-! ### After the flag -/

/-- `shutdown_requested` is set, and no more than `n` callbacks begin in all. -/
structure Bounded (n : Nat) (l : Listen.State) (stage : Stage) : Prop where
  flag : l.shutdown_requested = true
  born : stage.index ≠ none
  within : Listen.begun l + l.pc.budget ≤ n

theorem bounded_step {n : Nat} (h : Bounded n l stage) (threads : Threads e l stage l' stage') :
    Bounded n l' stage' := by
  obtain ⟨flag, born, within⟩ := h
  cases threads with
  | rests => exact ⟨flag, born, within⟩
  | starts i unborn => exact absurd unborn born
  | hears msg =>
    refine ⟨flag, born, ?_⟩
    rw [Listen.begun_push]
    exact within
  | moves kind returned threaded =>
    refine ⟨?_, born, (Listen.budget_listener kind flag returned).trans within⟩
    rw [Listen.listener_shutdown, flag]
  | flags i alive => exact ⟨rfl, nofun, within⟩
  | withdraws i shutdown => exact ⟨flag, nofun, within⟩
  | joins i pushed ended => exact ⟨flag, nofun, within⟩
  | abandons i joined => exact ⟨flag, nofun, within⟩
  | returns i abandoned => exact ⟨flag, nofun, within⟩

theorem flagged_step (h : l.shutdown_requested = true → stage.index ≠ none)
    (threads : Threads e l stage l' stage') : l'.shutdown_requested = true → stage'.index ≠ none := by
  cases threads with
  | rests => exact h
  | hears msg => exact h
  | moves kind returned threaded =>
    rw [Listen.listener_shutdown]
    exact h
  | _ => exact fun _ => nofun

/-- The thread has been joined, and these are the messages it handed over. -/
structure Over (called : List Listen.Letter) (l : Listen.State) (stage : Stage) : Prop where
  settled : stage.settled = true
  same : Listen.calls l.log = called

theorem over_step {called : List Listen.Letter} (orderly : Orderly e l stage) (h : Over called l stage)
    (threads : Threads e l stage l' stage') : Over called l' stage' := by
  obtain ⟨settled, same⟩ := h
  cases threads with
  | rests => exact ⟨settled, same⟩
  | starts i unborn =>
    cases here : stage with
    | unborn => rw [here] at settled; cases settled
    | _ => rw [here] at unborn; cases unborn
  | hears msg => exact ⟨settled, (Listen.calls_push l msg).trans same⟩
  | moves kind returned threaded =>
    refine ⟨settled, ?_⟩
    rw [listener_of_joinable threaded (orderly.settled settled)]
    exact same
  | flags i alive =>
    rw [alive] at settled
    cases settled
  | withdraws i shutdown =>
    rw [shutdown] at settled
    cases settled
  | joins i pushed ended => exact ⟨rfl, same⟩
  | abandons i joined => exact ⟨rfl, same⟩
  | returns i abandoned => exact ⟨rfl, same⟩

end Threads

/-! ### The runs -/

/-- What every step of the thread and of the destructor keeps, every run keeps. -/
theorem threads_run {e : Endpoint} {P : Listen.State → Stage → Prop}
    (keep : ∀ l stage l' stage', P l stage → Threads e l stage l' stage' → P l' stage') {s : Lifetime}
    (initially : P s.thread s.stage) (events : List Event) :
    P (run e s events).thread (run e s events).stage := by
  have keeps (s : Lifetime) (event : Event) (h : P s.thread s.stage) :
      P (step e s event).thread (step e s event).stage :=
    keep _ _ _ _ h (threads_step e s event)
  exact @Machine.invariant_run _ _ _ (fun s : Lifetime => P s.thread s.stage) keeps s initially events

theorem orderly_run (e : Endpoint) (events : List Event) :
    Orderly e (run e start events).thread (run e start events).stage := by
  apply threads_run
  · exact fun l stage l' stage' h threads => orderly_step h threads
  · exact ⟨nofun, fun _ => rfl⟩

theorem flagged_run (e : Endpoint) (events : List Event) :
    (run e start events).thread.shutdown_requested = true → (run e start events).stage.index ≠ none := by
  apply threads_run (P := fun l stage => l.shutdown_requested = true → stage.index ≠ none)
  · exact fun l stage l' stage' h threads => flagged_step h threads
  · exact nofun

/-- At most one callback begins once the destructor has set `shutdown_requested`. When the destructor
has returned none runs, and none begins, whatever is pushed to the listener queue. -/
theorem no_callback_after_destruction (e : Endpoint) (events later : List Event) :
    let s := run e start events
    let t := run e s later
    (s.thread.shutdown_requested = true →
      (Listen.calls t.thread.log).length ≤ (Listen.calls s.thread.log).length + 1) ∧
    (∀ i, s.stage = .returned i →
      Listen.calls t.thread.log = Listen.calls s.thread.log ∧
        ∀ x payload, t.thread.pc ≠ .callback x payload) := by
  intro s t
  have orderly : Orderly e s.thread s.stage := orderly_run e events
  constructor
  · intro flag
    have initially : Bounded (Listen.begun s.thread + 1) s.thread s.stage :=
      ⟨flag, flagged_run e events flag, Nat.add_le_add_left (Listen.Pc.budget_le s.thread.pc) _⟩
    have bounded : Bounded (Listen.begun s.thread + 1) t.thread t.stage :=
      threads_run (fun l stage l' stage' h threads => bounded_step h threads) initially later
    exact (Nat.le_add_right _ _).trans bounded.within
  · intro i returned
    have settled : s.stage.settled = true := by rw [returned]; rfl
    have both : Orderly e t.thread t.stage ∧ Over (Listen.calls s.thread.log) t.thread t.stage := by
      apply threads_run (P := fun l stage => Orderly e l stage ∧ Over _ l stage)
      · rintro l stage l' stage' ⟨orderly, quiet⟩ threads
        exact ⟨orderly_step orderly threads, over_step orderly quiet threads⟩
      · exact ⟨orderly, settled, rfl⟩
    obtain ⟨orderly, quiet⟩ := both
    exact ⟨quiet.same, no_callback_of_joinable orderly (orderly.settled quiet.settled)⟩

/-- `shutdown_requested` is set while the thread is about to hand a request over. -/
def overtaken : List Event := [.construct (ascii "1"), request] ++ listens 3 ++ destroys 1

/-- The destructor returns, and the client still pushes a request. -/
def unheard : List Event := listens 4 ++ destroys 4 ++ request :: listens 2

theorem no_callback_after_destruction_overtaken :
    let s := run server start overtaken
    let t := run server s unheard
    (Listen.calls s.thread.log).length = 0 ∧ (Listen.calls t.thread.log).length = 1 ∧
      (Listen.calls t.thread.log).length ≤ (Listen.calls s.thread.log).length + 1 ∧
      Listen.calls (run server t [request]).thread.log = Listen.calls t.thread.log := by
  have once := (no_callback_after_destruction server overtaken unheard).1 (by decide +kernel)
  have never := (no_callback_after_destruction server (overtaken ++ unheard) [request]).2 0 (by
    decide +kernel)
  simp only [run, Machine.run_append] at never
  exact ⟨by decide +kernel, by decide +kernel, once, never.1⟩

end Lifetime

end Rosbridge
