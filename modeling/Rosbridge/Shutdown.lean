import Rosbridge.Listen.Dispatch
import Rosbridge.Talk.System
import Rosbridge.Timer

/-!
# The destructor of the client (`~RosbridgeClient`)

Its body replaces the callbacks of the connection, and then the members are destroyed from the last that is
declared to the first: `listeners`, `talkers`, `talker_timer`, `connection`. The timer thread goes on with
`talk` until `talker_timer` joins it. The runner thread is detached; it is in a handler or not when the
callbacks are replaced, and it leaves its loop at the next attempt to connect.
-/

namespace Rosbridge.Shutdown

open Talk

inductive Member where
  | listeners
  | talkers
deriving DecidableEq

inductive Routine where
  | talk
  | resetTalkers
  | listen
deriving DecidableEq

structure Access where
  routine : Routine
  member : Member
  alive : Bool
deriving DecidableEq

/-- What the destructor does next: replace that callback, or destroy that member. -/
inductive Stage where
  | on_connection
  | on_disconnection
  | on_message_received
  | listeners
  | talkers
  | talker_timer
  | connection
  | returned
deriving DecidableEq

def Stage.has : Stage → Member → Bool
  | .talkers, .listeners => false
  | .talker_timer, _ => false
  | .connection, _ => false
  | .returned, _ => false
  | _, _ => true

/-- `on_message_received` is still `listen`. -/
def Stage.hears : Stage → Bool
  | .on_connection => true
  | .on_disconnection => true
  | .on_message_received => true
  | _ => false

/-- The next step of `listen`. `push` goes on with the queues that are left. -/
inductive Listening where
  | unserialize (data : Bytes)
  | lookup (name : Bytes)
  | push (queues : List Nat)

structure State (M : Type) where
  system : Talk.State M
  timer : Timer.State Unit
  listeners : Listeners := .none
  listening : Option Listening := none
  stage : Stage := .on_connection
  log : List Access := []

variable {M : Type}

/-- `client` is a step of the rest of the client, `attach` of a listener queue. A message comes in on the
runner thread, which is then in `listen`. -/
inductive Event (M : Type) where
  | client (e : Talk.Event M)
  | attach (q : Nat) (topic : Bytes)
  | timer (accepts : Bool)
  | message (data : Bytes)
  | listen
  | destructor

/-- The call reads a queue of `talkers`. -/
def touches : Talk.Pc M → Bool
  | .empty _ => true
  | .next _ => true
  | .pop _ _ _ => true
  | _ => false

def returns : Talk.Pc M → Bool
  | .idle => true
  | _ => false

namespace State

def thread (s : State M) : Timer.ThreadPc :=
  match s.timer.threads[0]? with
  | some t => t.pc
  | none => .done

/-- The next step of `resetTalkers` reads `talkers`: where it begins, and at each queue. -/
def resets (s : State M) : Bool :=
  match s.system.resetTalkers with
  | some i => i = 0 || i < s.system.talkers.length
  | none => false

def reads (s : State M) : Bool :=
  match s.listening with
  | some (.lookup _) => true
  | some (.push (_ :: _)) => true
  | _ => false

end State

def timer (s : State M) (accepts : Bool) : State M :=
  match s.thread with
  | .call =>
    { s with timer := Timer.step s.timer (.thread 0), system := Talk.talk s.system accepts }
  | .func =>
    let system := Talk.talk s.system accepts
    { s with
      timer := if returns system.pc then Timer.step s.timer (.thread 0) else s.timer
      system := system }
  | _ => { s with timer := Timer.step s.timer (.thread 0) }

/-- The open handler is `resetTalkers` as long as `on_connection` is not replaced. -/
def link (s : State M) (c : Change) : State M :=
  let handling := s.system.resetTalkers.isSome || s.listening.isSome
  let link := s.system.link.change handling c
  { s with
    system := { s.system with
      link := link
      resetTalkers :=
        if link.session = s.system.link.session then s.system.resetTalkers
        else if s.stage = .on_connection then some 0 else none } }

def client (s : State M) : Talk.Event M → State M
  | .attach queue_size head_msg =>
    -- Nobody calls a client that is being destroyed.
    if s.stage = .on_connection then { s with system := Talk.step s.system (.attach queue_size head_msg) } else s
  | .talk _ => s
  | .resetTalkers => { s with system := Talk.step s.system .resetTalkers }
  | .link .install =>
    -- `while (not this->shutting_down)`
    if s.stage = .returned then s else link s .install
  | .link c => link s c
  | e => { s with system := Talk.step s.system e }

def attach (s : State M) (q : Nat) (topic : Bytes) : State M :=
  if s.stage = .on_connection ∧ s.listening.isNone then { s with listeners := s.listeners.attach q topic } else s

def message (s : State M) (data : Bytes) : State M :=
  let handling := s.system.resetTalkers.isSome || s.listening.isSome
  if (s.system.link.phase = .opened ∨ s.system.link.phase = .closing) ∧ handling = false ∧ s.stage.hears = true
  then { s with listening := some (.unserialize data) }
  else s

def listen (picojson : Picojson) (s : State M) : State M :=
  match s.listening with
  | none => s
  | some (.unserialize data) =>
    match Unserializer.new picojson data >>= route with
    | .ok (some name) => { s with listening := some (.lookup name) }
    | _ => { s with listening := none }
  | some (.lookup name) => { s with listening := some (.push (s.listeners name)) }
  | some (.push []) => { s with listening := none }
  | some (.push (_ :: rest)) => { s with listening := some (.push rest) }

def destructor (s : State M) : State M :=
  match s.stage with
  | .on_connection => { s with stage := .on_disconnection }
  | .on_disconnection => { s with stage := .on_message_received }
  | .on_message_received => { s with stage := .listeners }
  | .listeners => { s with stage := .talkers }
  | .talkers => { s with stage := .talker_timer }
  | .talker_timer =>
    match s.timer.owner with
    | .destroyed => { s with stage := .connection }
    | .idle => { s with timer := Timer.step s.timer .destructor }
    | _ => { s with timer := Timer.step s.timer (.owner true) }
  | .connection => { s with stage := .returned }
  | .returned => s

def act (picojson : Picojson) (s : State M) : Event M → State M
  | .client e => client s e
  | .attach q topic => attach s q topic
  | .timer accepts => timer s accepts
  | .message data => message s data
  | .listen => listen picojson s
  | .destructor => destructor s

/-- What a step reads. A call of `talk` begins with the range of `talkers`. -/
def accesses (s : State M) : Event M → List (Routine × Member)
  | .timer _ =>
    match s.thread with
    | .call => [(.talk, .talkers)]
    | .func => if touches s.system.pc then [(.talk, .talkers)] else []
    | _ => []
  | .client .resetTalkers => if s.resets then [(.resetTalkers, .talkers)] else []
  | .listen => if s.reads then [(.listen, .listeners)] else []
  | _ => []

/-- No access was to a member that is destroyed. -/
def Ordered (s : State M) : Prop := ∀ x ∈ s.log, x.alive = true

instance (s : State M) : Decidable (Ordered s) := by unfold Ordered; infer_instance

/-- Nothing is defined after an access to a member that is destroyed. -/
def step (picojson : Picojson) (s : State M) (e : Event M) : State M :=
  if Ordered s then
    { act picojson s e with
      log := s.log ++ (accesses s e).map fun (routine, member) => ⟨routine, member, s.stage.has member⟩ }
  else s

abbrev run (picojson : Picojson) (s : State M) (events : List (Event M)) : State M :=
  Machine.run (step picojson) s events

/-- `this->talker_timer.start(5, [this]() { this->talk(); });` -/
def talker_timer : Timer.State Unit := Timer.run Timer.start (.start 5 () :: List.replicate 4 (.owner true))

def start (phase : Phase) : State M where
  system := Talk.start phase
  timer := talker_timer

/-! ### The timer is joined -/

structure Sound (s : State M) : Prop where
  timer : Timer.Sound s.timer
  joined : s.stage = .connection ∨ s.stage = .returned → s.timer.owner = .destroyed

theorem thread_done {s : State M} (h : Timer.Sound s.timer) (destroyed : s.timer.owner = .destroyed) :
    s.thread = .done := by
  have quiet : Timer.Quiet s.timer := by
    have phase := h.phase
    rw [destroyed] at phase
    exact phase
  unfold State.thread
  split
  · rename_i t here
    exact quiet.done 0 t here
  · rfl

/-- The timer thread and the destructor work on the timer, and only the destructor goes on. -/
theorem act_other (picojson : Picojson) (s : State M) (e : Event M) :
    e = .destructor ∨ (act picojson s e).stage = s.stage ∧
      ((act picojson s e).timer = s.timer ∨ (act picojson s e).timer = Timer.step s.timer (.thread 0)) := by
  cases e with
  | destructor => exact .inl rfl
  | timer accepts =>
    refine .inr ?_
    unfold act timer
    dsimp only
    split
    · exact ⟨rfl, .inr rfl⟩
    · refine ⟨rfl, ?_⟩
      dsimp only
      split
      · exact .inr rfl
      · exact .inl rfl
    · exact ⟨rfl, .inr rfl⟩
  | client e =>
    refine .inr ?_
    cases e with
    | link c =>
      unfold act client link
      cases c with
      | install =>
        dsimp only
        split <;> exact ⟨rfl, .inl rfl⟩
      | _ => exact ⟨rfl, .inl rfl⟩
    | attach queue_size head_msg =>
      unfold act client
      dsimp only
      split <;> exact ⟨rfl, .inl rfl⟩
    | _ => exact ⟨rfl, .inl rfl⟩
  | attach q topic =>
    refine .inr ?_
    unfold act attach
    dsimp only
    split <;> exact ⟨rfl, .inl rfl⟩
  | message data =>
    refine .inr ?_
    unfold act message
    dsimp only
    split <;> exact ⟨rfl, .inl rfl⟩
  | listen =>
    refine .inr ?_
    unfold act listen
    dsimp only
    split
    · exact ⟨rfl, .inl rfl⟩
    · split <;> exact ⟨rfl, .inl rfl⟩
    · exact ⟨rfl, .inl rfl⟩
    · exact ⟨rfl, .inl rfl⟩
    · exact ⟨rfl, .inl rfl⟩

theorem sound_destructor {s : State M} (h : Sound s) : Sound (destructor s) := by
  obtain ⟨timer, joined⟩ := h
  unfold destructor
  cases stage : s.stage with
  | talker_timer =>
    dsimp only
    split
    · rename_i destroyed
      exact ⟨timer, fun _ => destroyed⟩
    · exact ⟨Timer.sound_step timer _, fun later => by simp at later⟩
    · exact ⟨Timer.sound_step timer _, fun later => by simp at later⟩
  | connection => exact ⟨timer, fun _ => joined (.inl stage)⟩
  | returned => exact ⟨timer, joined⟩
  | _ => exact ⟨timer, fun later => by simp at later⟩

theorem sound_step {picojson : Picojson} {s : State M} (h : Sound s) (e : Event M) :
    Sound (step picojson s e) := by
  unfold step
  split
  · have acts : Sound (act picojson s e) := by
      rcases act_other picojson s e with rfl | ⟨stage, same | moved⟩
      · exact sound_destructor h
      · exact ⟨same ▸ h.timer, by rw [stage, same]; exact h.joined⟩
      · refine ⟨moved ▸ Timer.sound_step h.timer _, ?_⟩
        rw [stage, moved, Timer.step_thread h.timer.running, Timer.owner_work]
        exact h.joined
    exact ⟨acts.timer, acts.joined⟩
  · exact h

theorem sound_start (phase : Phase) : Sound (start phase : State M) where
  timer := Timer.sound_run _
  joined later := by rcases later with later | later <;> cases later

/-! ### A destructor that waits -/

/-- `listeners` and `talkers` are destroyed when no handler and no pass is under way, and the timer thread
does not look at `_execute` before it is cleared. -/
def Patient (s : State M) : Event M → Prop
  | .destructor =>
    (s.stage = .listeners → s.listening = none) ∧
      (s.stage = .talkers → s.system.resetTalkers = none ∧ s.thread ≠ .call ∧ s.thread ≠ .func)
  | .timer _ => s.stage = .talker_timer → s.thread = .load → s.timer.execute = false
  | _ => True

instance (s : State M) : (e : Event M) → Decidable (Patient s e)
  | .destructor => by unfold Patient; infer_instance
  | .timer _ => by unfold Patient; infer_instance
  | .client _ | .attach _ _ | .message _ | .listen => .isTrue trivial

structure Unused (s : State M) : Prop where
  listeners : s.stage.has .listeners = false → s.listening = none
  resetTalkers : s.stage.has .talkers = false → s.system.resetTalkers = none
  thread : s.stage.has .talkers = false → s.thread ≠ .call ∧ s.thread ≠ .func

/-- No routine reads a member that is in no use. -/
theorem Unused.alive {s : State M} (h : Unused s) (e : Event M) :
    ∀ x ∈ accesses s e, s.stage.has x.2 = true := by
  intro x member
  by_contra gone
  rw [Bool.not_eq_true] at gone
  unfold accesses at member
  cases e with
  | timer accepts =>
    dsimp only at member
    cases thread : s.thread with
    | call =>
      rw [thread] at member
      obtain rfl := List.mem_singleton.mp member
      exact (h.thread gone).1 thread
    | func =>
      rw [thread] at member
      dsimp only at member
      split at member
      · obtain rfl := List.mem_singleton.mp member
        exact (h.thread gone).2 thread
      · cases member
    | _ =>
      rw [thread] at member
      cases member
  | listen =>
    dsimp only at member
    split at member
    · rename_i reading
      obtain rfl := List.mem_singleton.mp member
      rw [State.reads, h.listeners gone] at reading
      cases reading
    · cases member
  | client e =>
    cases e with
    | resetTalkers =>
      dsimp only at member
      split at member
      · rename_i resetting
        obtain rfl := List.mem_singleton.mp member
        rw [State.resets, h.resetTalkers gone] at resetting
        cases resetting
      · cases member
    | _ => cases member
  | _ => cases member

theorem ordered_step {picojson : Picojson} {s : State M} (h : Ordered s) (unused : Unused s) (e : Event M) :
    Ordered (step picojson s e) := by
  rw [step, if_pos h]
  intro y member
  rcases List.mem_append.mp member with old | new
  · exact h y old
  · obtain ⟨x, reads, rfl⟩ := List.mem_map.mp new
    exact unused.alive e x reads

/-- The owner of the timer does not take the thread further. -/
theorem thread_owner {s : State M} {e : Timer.Event Unit} (owner : ∀ k, e ≠ .thread k) :
    State.thread { s with timer := Timer.step s.timer e } = s.thread ∨
      s.thread = .done ∧ State.thread { s with timer := Timer.step s.timer e } = .load := by
  rcases Timer.threads_step (s := s.timer) owner with same | ⟨t, fresh, same⟩
  · exact .inl (by simp only [State.thread, same])
  · simp only [State.thread, same]
    cases found : s.timer.threads with
    | nil => exact .inr (by simp [fresh])
    | cons first rest => exact .inl (by simp)

/-- A thread that finds `_execute` cleared begins no pass. -/
theorem thread_rests {s : State M} (sound : Sound s) (resting : s.thread ≠ .call ∧ s.thread ≠ .func)
    (cleared : s.thread = .load → s.timer.execute = false) (accepts : Bool) :
    timer s accepts = { s with timer := s.timer.work 0 } ∧
      (timer s accepts).thread ≠ .call ∧ (timer s accepts).thread ≠ .func := by
  have moved : timer s accepts = { s with timer := s.timer.work 0 } := by
    unfold timer
    split
    · rename_i call
      exact absurd call resting.1
    · rename_i func
      exact absurd func resting.2
    · rw [Timer.step_thread sound.timer.running]
  refine ⟨moved, ?_⟩
  rw [moved]
  unfold State.thread at resting cleared ⊢
  dsimp only
  unfold Timer.State.work
  cases found : s.timer.threads[0]? with
  | none => simp [found]
  | some t =>
    obtain ⟨inside, -⟩ := List.getElem?_eq_some_iff.mp found
    rw [found] at resting cleared
    dsimp only at resting cleared ⊢
    cases pc : t.pc with
    | load => simp [Timer.State.move, inside, cleared pc]
    | sleep => simp [Timer.State.move, inside]
    | done => simp [found, pc]
    | call => exact absurd pc resting.1
    | func => exact absurd pc resting.2

theorem unused_destructor {s : State M} (h : Unused s)
    (listening : s.stage = .listeners → s.listening = none)
    (talking : s.stage = .talkers →
      s.system.resetTalkers = none ∧ s.thread ≠ .call ∧ s.thread ≠ .func) :
    Unused (destructor s) := by
  obtain ⟨listeners, resetTalkers, thread⟩ := h
  unfold destructor
  cases stage : s.stage with
  | listeners => exact ⟨fun _ => listening stage, nofun, nofun⟩
  | talkers =>
    obtain ⟨reset, resting⟩ := talking stage
    exact ⟨fun _ => listeners (by rw [stage]; rfl), fun _ => reset, fun _ => resting⟩
  | talker_timer =>
    rw [stage] at listeners resetTalkers thread
    have rests {e : Timer.Event Unit} (owner : ∀ k, e ≠ .thread k) :
        State.thread { s with timer := Timer.step s.timer e } ≠ .call ∧
          State.thread { s with timer := Timer.step s.timer e } ≠ .func := by
      rcases thread_owner owner with same | ⟨-, fresh⟩
      · rw [same]
        exact thread rfl
      · rw [fresh]
        exact ⟨nofun, nofun⟩
    dsimp only
    split
    · exact ⟨listeners, resetTalkers, thread⟩
    · exact ⟨fun _ => listeners rfl, fun _ => resetTalkers rfl, fun _ => rests nofun⟩
    · exact ⟨fun _ => listeners rfl, fun _ => resetTalkers rfl, fun _ => rests nofun⟩
  | connection =>
    rw [stage] at listeners resetTalkers thread
    exact ⟨listeners, resetTalkers, thread⟩
  | returned => exact ⟨listeners, resetTalkers, thread⟩
  | _ => exact ⟨nofun, nofun, nofun⟩

theorem unused_link {s : State M} (h : Unused s) (c : Change) : Unused (link s c) := by
  refine ⟨h.listeners, fun gone => ?_, h.thread⟩
  have late : s.stage ≠ .on_connection := by
    intro early
    have kept : (link s c).stage = s.stage := rfl
    rw [kept, early] at gone
    cases gone
  unfold link
  dsimp only
  split
  · exact h.resetTalkers gone
  · rfl

theorem unused_timer {s : State M} (sound : Sound s) (h : Unused s) {accepts : Bool}
    (patient : Patient s (.timer accepts)) : Unused (timer s accepts) := by
  have same : (timer s accepts).stage = s.stage ∧ (timer s accepts).listening = s.listening := by
    unfold timer
    split <;> exact ⟨rfl, rfl⟩
  have rests (gone : s.stage.has .talkers = false) := by
    refine thread_rests sound (h.thread gone) (fun loading => ?_) accepts
    cases stage : s.stage with
    | talker_timer => exact patient stage loading
    | connection =>
      rw [thread_done sound.timer (sound.joined (.inl stage))] at loading
      cases loading
    | returned =>
      rw [thread_done sound.timer (sound.joined (.inr stage))] at loading
      cases loading
    | _ => rw [stage] at gone; cases gone
  rw [← same.1] at rests
  refine ⟨?_, fun gone => ?_, fun gone => (rests gone).2⟩
  · rw [same.1, same.2]
    exact h.listeners
  · rw [(rests gone).1]
    exact h.resetTalkers (same.1 ▸ gone)

theorem unused_step {picojson : Picojson} {s : State M} (sound : Sound s) (h : Unused s) {e : Event M}
    (patient : Patient s e) : Unused (act picojson s e) := by
  cases e with
  | destructor => exact unused_destructor h patient.1 patient.2
  | timer accepts => exact unused_timer sound h patient
  | client e =>
    unfold act client
    cases e with
    | link c =>
      cases c with
      | install =>
        dsimp only
        split
        · exact h
        · exact unused_link h _
      | _ => exact unused_link h _
    | attach queue_size head_msg =>
      dsimp only
      split
      · rename_i early
        exact ⟨by simp [early, Stage.has], by simp [early, Stage.has], by simp [early, Stage.has]⟩
      · exact h
    | resetTalkers =>
      refine ⟨h.listeners, fun gone => ?_, h.thread⟩
      show (Talk.resetTalkers s.system).resetTalkers = none
      rw [Talk.resetTalkers, h.resetTalkers gone]
      exact h.resetTalkers gone
    | talk accepts => exact h
    | _ => exact ⟨h.listeners, h.resetTalkers, h.thread⟩
  | attach q topic =>
    unfold act attach
    dsimp only
    split
    · exact ⟨h.listeners, h.resetTalkers, h.thread⟩
    · exact h
  | message data =>
    unfold act message
    dsimp only
    split
    · rename_i heard
      refine ⟨fun gone => ?_, h.resetTalkers, h.thread⟩
      have hears := heard.2.2
      cases stage : s.stage <;> simp_all [Stage.has, Stage.hears]
    · exact h
  | listen =>
    unfold act listen
    dsimp only
    split
    · exact h
    · rename_i data reading
      have there : s.stage.has .listeners ≠ false := fun gone => by simp [h.listeners gone] at reading
      split <;> exact ⟨fun gone => absurd gone there, h.resetTalkers, h.thread⟩
    · rename_i name reading
      exact ⟨fun gone => by simp [h.listeners gone] at reading, h.resetTalkers, h.thread⟩
    · exact ⟨fun _ => rfl, h.resetTalkers, h.thread⟩
    · rename_i q rest reading
      exact ⟨fun gone => by simp [h.listeners gone] at reading, h.resetTalkers, h.thread⟩

/-- A destructor that waits for the handlers, and that clears `_execute` while the timer thread sleeps,
destroys its members in order. -/
theorem patient_shutdown_is_ordered {picojson : Picojson} {phase : Phase} {events : List (Event M)}
    (patient : Machine.Along (step picojson) Patient (start phase : State M) events) :
    Ordered (run picojson (start phase) events) := by
  have keep : ∀ (s : State M) (e : Event M), Sound s ∧ Unused s ∧ Ordered s → Patient s e →
      Sound (step picojson s e) ∧ Unused (step picojson s e) ∧ Ordered (step picojson s e) := by
    rintro s e ⟨sound, unused, ordered⟩ patient
    refine ⟨sound_step sound e, ?_, ordered_step ordered unused e⟩
    rw [step, if_pos ordered]
    obtain ⟨listeners, resetTalkers, thread⟩ := @unused_step M picojson s sound unused e patient
    exact ⟨listeners, resetTalkers, thread⟩
  refine (Machine.invariant_along keep ⟨sound_start phase, ?_, ?_⟩ patient).2.2
  · exact ⟨nofun, nofun, nofun⟩
  · simp [Ordered, start]

/-! ### Concrete runs -/

def destroys (n : Nat) : List (Event Serializer) := List.replicate n .destructor

def clients (events : List (Talk.Event Serializer)) : List (Event Serializer) := events.map .client

/-- The timer thread wakes up before `talker_timer` is joined. -/
def unjoined : List (Event Serializer) := destroys 5 ++ List.replicate 2 (.timer true)

def head : Serializer := .topicAdvertise (ascii "/chatter") (ascii "std_msgs/String") (ascii "1")

/-- The connection has come up, and its open handler is about to reset the queues. -/
def resetting : List (Event Serializer) :=
  clients [.attach 1 head, .link .install, .link .activate, .link .opened] ++ destroys 5 ++
    clients [.resetTalkers]

/-- A message has come in, and `listen` is about to look its queues up. -/
def listening : List (Event Serializer) :=
  clients [.link .install, .link .activate, .link .opened, .resetTalkers, .resetTalkers] ++
    [.message (ascii "\x7b\"op\":\"publish\",\"topic\":\"/chatter\"\x7d"), .listen] ++ destroys 4 ++ [.listen]

theorem shutdown_is_not_ordered :
    ¬ Ordered (run picojson.package (start .offline) unjoined) ∧
      ¬ Ordered (run picojson.package (start .offline) resetting) ∧
      ¬ Ordered (run picojson.package (start .offline) listening) := by
  refine ⟨?_, ?_, ?_⟩ <;> decide +kernel

def reconnects : List (Event Serializer) :=
  clients [.link .closed, .link .clear_sender, .link .clear_active, .link .install, .link .activate, .link .opened]

/-- `listen` is under way when the callbacks are replaced, and ends before `listeners` is destroyed. The
timer thread sleeps until `_execute` is cleared. -/
def waited : List (Event Serializer) :=
  clients [.attach 1 head] ++ .attach 0 (ascii "/chatter") ::
    clients [.link .install, .link .activate, .link .opened, .resetTalkers, .resetTalkers] ++
    List.replicate 9 (.timer true) ++
    .message (ascii "\x7b\"op\":\"publish\",\"topic\":\"/chatter\"\x7d") :: List.replicate 2 .listen ++
    destroys 3 ++ List.replicate 3 .listen ++ reconnects ++ clients [.resetTalkers] ++ destroys 5 ++
    List.replicate 2 (.timer true) ++ destroys 6

theorem patient_shutdown_is_ordered_waited :
    (run picojson.package (start .offline) waited).stage = .returned ∧
      (run picojson.package (start .offline) waited).log.map Access.routine =
        [.resetTalkers, .talk, .talk, .talk, .talk, .listen, .listen] ∧
      Ordered (run picojson.package (start .offline) waited) := by
  have patient : Machine.Along (step picojson.package) Patient (start .offline) waited := by decide +kernel
  exact ⟨by decide +kernel, by decide +kernel, patient_shutdown_is_ordered patient⟩

end Rosbridge.Shutdown
