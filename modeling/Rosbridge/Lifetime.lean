import Rosbridge.Listen.Consumer
import Rosbridge.Talk.LastWord

/-!
# The life of an endpoint

A `Publisher`, `Subscriber` or `ServiceServer` from its constructor to the end of its destructor,
with its own listener thread and with the rest of its client: the sender loop, the connection and
the other endpoints, interleaved at their atomic steps. The destructor pushes the withdrawal before
it joins the thread, and the thread of a `ServiceServer` pushes to the same queue.
-/

namespace Rosbridge

open Talk

inductive Endpoint where
  | publisher (p : Publisher)
  | subscriber (s : Subscriber)
  | serviceServer (s : ServiceServer)

namespace Endpoint

def attach : Endpoint → Bytes → Event Serializer
  | publisher p => p.attach
  | subscriber s => s.attach
  | serviceServer s => s.attach

/-- The message that the destructor pushes. -/
def withdrawal : Endpoint → Bytes → Serializer
  | publisher p => .topicUnadvertise p.topic
  | subscriber s => .topicUnsubscribe s.topic
  | serviceServer s => .serviceUnadvertise s.service

def talker_size : Endpoint → Int32
  | publisher p => p.queue_size
  | subscriber _ => 10
  | serviceServer s => s.queue_size

def listener_size : Endpoint → Int32
  | publisher _ => 0
  | subscriber s => s.queue_size
  | serviceServer s => s.queue_size

/-- A `Publisher` has neither a listener queue nor a thread. -/
def kind : Endpoint → Option Listen.Kind
  | publisher _ => none
  | subscriber _ => some .subscriber
  | serviceServer s => some (.serviceServer s.service)

/-- What the thread pushes to the talker queue in its next step. -/
def answer (e : Endpoint) (l : Listen.State) (returned : Option Object) : Option Serializer :=
  match e, l.pc, returned with
  | serviceServer s, .callback x _, some values => (Listen.response s.service x values).toOption
  | _, _, _ => none

end Endpoint

/-- What has been done last, for the endpoint whose talker queue has that index. -/
inductive Stage where
  | unborn
  | alive (i : Nat)
  | shutdown (i : Nat)
  | pushed (i : Nat)
  | joined (i : Nat)
  | abandoned (i : Nat)
  | returned (i : Nat)
  deriving DecidableEq

namespace Stage

def index : Stage → Option Nat
  | unborn => none
  | alive i => some i
  | shutdown i => some i
  | pushed i => some i
  | joined i => some i
  | abandoned i => some i
  | returned i => some i

/-- The destructor has pushed the withdrawal. -/
def withdrawn : Stage → Bool
  | pushed _ => true
  | joined _ => true
  | abandoned _ => true
  | returned _ => true
  | _ => false

/-- And it has not returned. -/
def withdrawing : Stage → Bool
  | pushed _ => true
  | joined _ => true
  | abandoned _ => true
  | _ => false

end Stage

structure Lifetime where
  system : Talk.State Serializer
  thread : Listen.State
  stage : Stage := .unborn

namespace Lifetime

/-- `client` is a step of the rest of the client. `publish` is not called any more once the destructor
runs. -/
inductive Event where
  | client (e : Talk.Event Serializer)
  | construct (id : Bytes)
  | publish (json : Object) (id : Bytes)
  | inbound (msg : Unserializer)
  | listener (returned : Option Object)
  | destructor (id : Bytes)

def target : Talk.Event Serializer → Option Nat
  | .push i _ => some i
  | .destroy i _ => some i
  | .abandon i => some i
  | _ => none

def construct (e : Endpoint) (s : Lifetime) (id : Bytes) : Lifetime :=
  match s.stage with
  | .unborn =>
    let system := Talk.step s.system (e.attach id)
    if s.system.talkers.length < system.talkers.length then
      { system := system
        thread := Listen.start e.listener_size
        stage := .alive s.system.talkers.length }
    else s
  | _ => s

def listener (e : Endpoint) (s : Lifetime) (returned : Option Object) : Lifetime :=
  match e.kind, s.stage.index with
  | some kind, some i =>
    { s with
      system :=
        match e.answer s.thread returned with
        | some msg => Talk.step s.system (.push i msg)
        | none => s.system
      thread := Listen.listener kind s.thread returned }
  | _, _ => s

/-- `listener_thread.join()` can return. -/
def joinable (e : Endpoint) (l : Listen.State) : Bool :=
  match e.kind, l.pc with
  | none, _ => true
  | some _, .done => true
  | some _, _ => false

/-- The next step of the destructor. That of a `Publisher` has nothing to stop and nothing to join. -/
def destructor (e : Endpoint) (s : Lifetime) (id : Bytes) : Lifetime :=
  match s.stage with
  | .unborn => s
  | .alive i => { s with thread := { s.thread with shutdown_requested := true }, stage := .shutdown i }
  | .shutdown i =>
    { s with system := Talk.step s.system (.destroy i (e.withdrawal id)), stage := .pushed i }
  | .pushed i => if joinable e s.thread then { s with stage := .joined i } else s
  | .joined i => { s with system := Talk.step s.system (.abandon i), stage := .abandoned i }
  | .abandoned i =>
    { s with thread := { s.thread with queue := s.thread.queue.abandon }, stage := .returned i }
  | .returned _ => s

def act (e : Endpoint) (s : Lifetime) : Event → Lifetime
  | .client event =>
    -- Nobody else pushes to the queue of the endpoint.
    if (target event).isSome ∧ target event = s.stage.index then s
    else { s with system := Talk.step s.system event }
  | .construct id => construct e s id
  | .publish json id =>
    match e, s.stage with
    | .publisher p, .alive i => { s with system := Talk.step s.system (p.publish i json id) }
    | _, _ => s
  | .inbound msg =>
    match e.kind, s.stage.index with
    | some _, some _ => { s with thread := Listen.push s.thread msg }
    | _, _ => s
  | .listener returned => listener e s returned
  | .destructor id => destructor e s id

/-- After `std::terminate` there is no process. -/
def step (e : Endpoint) (s : Lifetime) (event : Event) : Lifetime :=
  match s.thread.pc with
  | .terminated => s
  | _ => act e s event

abbrev run (e : Endpoint) (s : Lifetime) (events : List Event) : Lifetime :=
  Machine.run (step e) s events

def start : Lifetime where
  system := Talk.start .offline
  thread := Listen.start 0

/-- The endpoint has pushed its withdrawal, which was transmitted or is the last message in the queue. -/
def Parted (e : Endpoint) (t : Talker Serializer) : Prop :=
  ∃ x : Slip Serializer, x.isWithdrawal = true ∧ (∃ id, x.msg = e.withdrawal id) ∧ .pushed x ∈ t.log ∧
    ((∃ session, .sent session x ∈ t.log) ∨ t.queue.q.getLast? = some x)

/-- Nothing follows the withdrawal in the queue and, in the session that takes it, on the wire. -/
def LastWord (e : Endpoint) (s : Lifetime) : Prop :=
  ∀ i ∈ s.stage.index, ∃ t ∈ s.system.talkers[i]?,
    Silent t.log ∧ Final t.log ∧ (s.stage.withdrawing = true → Parted e t)

/-- When the destructor returns, the endpoint has parted. -/
def Parts (e : Endpoint) (s : Lifetime) (event : Event) : Prop :=
  ∀ i, (step e s event).stage = .returned i → s.stage ≠ .returned i →
    ∃ t ∈ (step e s event).system.talkers[i]?, Parted e t

/-- Once the withdrawal is pushed, the thread of a `ServiceServer` answers no request, and as long as the
destructor has not returned, `pop` takes the withdrawal off only after it was transmitted. The open
handler does not reset the queue after the session has taken the withdrawal. -/
def Undisturbed (e : Endpoint) (s : Lifetime) : Event → Prop
  | .client event => ∀ i ∈ s.stage.index,
      ResetsBefore i s.system event ∧ (s.stage.withdrawing = true → PopLeaves i s.system event)
  | .listener returned => s.stage.withdrawn = true → e.answer s.thread returned = none
  | _ => True

instance (e : Endpoint) (s : Lifetime) : (event : Event) → Decidable (Undisturbed e s event)
  | .client _ => by unfold Undisturbed; infer_instance
  | .listener _ => by unfold Undisturbed; infer_instance
  | .construct _ | .publish _ _ | .inbound _ | .destructor _ => .isTrue trivial

/-! ### The invariant -/

theorem withdrawn_of_withdrawing {stage : Stage} (withdrawing : stage.withdrawing = true) :
    stage.withdrawn = true := by
  cases stage with
  | pushed i => rfl
  | joined i => rfl
  | abandoned i => rfl
  | _ => cases withdrawing

structure Owned (e : Endpoint) (stage : Stage) (l : Lane Serializer) : Prop where
  size : l.talker.queue.q_size = e.talker_size
  closing : Closing l
  fresh : stage.withdrawn = false → Announced l.talker.log = false
  keeping : stage.withdrawing = true → Keeping l
  named : ∀ x, .pushed x ∈ l.talker.log → x.isWithdrawal = true → ∃ id, x.msg = e.withdrawal id

structure Sound (e : Endpoint) (s : Lifetime) : Prop where
  inside : Inside s.system
  owned : ∀ i ∈ s.stage.index, ∃ l, lane i s.system = some l ∧ Owned e s.stage l

theorem Owned.parted {e : Endpoint} {stage : Stage} {l : Lane Serializer} (h : Owned e stage l)
    (withdrawing : stage.withdrawing = true) : Parted e l.talker := by
  rcases (h.keeping withdrawing).kept with taken | last
  · obtain ⟨session, x, sent, withdrawal⟩ := withdrawn_eq_true.mp taken
    have pushed := h.closing.sent session x sent withdrawal
    exact ⟨x, withdrawal, h.named x pushed withdrawal, pushed, .inl ⟨session, sent⟩⟩
  · obtain ⟨x, last, withdrawal⟩ := (Option.any_eq_true _ _).mp last
    have pushed := h.closing.queued x (List.mem_of_getLast? last) withdrawal
    exact ⟨x, withdrawal, h.named x pushed withdrawal, pushed, .inr last⟩

theorem Sound.lastWord {e : Endpoint} {s : Lifetime} (h : Sound e s) : LastWord e s := by
  intro i index
  obtain ⟨l, here, owned⟩ := h.owned i index
  obtain ⟨found, -, -, -⟩ := lane_eq_some here
  exact ⟨l.talker, found, owned.closing.silent, owned.closing.final, owned.parted⟩

/-- The destructor returns from where the queue has been abandoned, and leaves the queue alone. -/
theorem returned_step {e : Endpoint} {s : Lifetime} {event : Event} {i : Nat}
    (returned : (step e s event).stage = .returned i) :
    s.stage = .returned i ∨ s.stage = .abandoned i ∧ (step e s event).system = s.system := by
  have acts (returned : (act e s event).stage = .returned i) :
      s.stage = .returned i ∨ s.stage = .abandoned i ∧ (act e s event).system = s.system := by
    cases event with
    | client event =>
      unfold act at returned
      dsimp only at returned
      split at returned <;> exact .inl returned
    | construct id =>
      unfold act construct at returned
      dsimp only at returned
      split at returned
      · split at returned
        · cases returned
        · exact .inl returned
      · exact .inl returned
    | publish json id =>
      unfold act at returned
      dsimp only at returned
      split at returned <;> exact .inl returned
    | inbound msg =>
      unfold act at returned
      dsimp only at returned
      split at returned <;> exact .inl returned
    | listener returned' =>
      unfold act listener at returned
      dsimp only at returned
      split at returned <;> exact .inl returned
    | destructor id =>
      unfold act destructor at returned ⊢
      cases stage : s.stage with
      | abandoned j =>
        rw [stage] at returned
        exact .inr ⟨congrArg Stage.abandoned (Stage.returned.inj returned), rfl⟩
      | returned j =>
        rw [stage] at returned
        exact .inl (stage.symm.trans returned)
      | pushed j =>
        rw [stage] at returned
        dsimp only at returned
        split at returned
        · cases returned
        · rw [stage] at returned
          cases returned
      | unborn =>
        rw [stage] at returned
        cases stage.symm.trans returned
      | _ =>
        rw [stage] at returned
        cases returned
  unfold step at returned ⊢
  split at returned
  · exact .inl returned
  · exact acts returned

theorem Sound.parts {e : Endpoint} {s : Lifetime} (h : Sound e s) (event : Event) : Parts e s event := by
  intro i returned before
  rcases returned_step returned with already | ⟨abandoned, same⟩
  · exact absurd already before
  · obtain ⟨l, here, owned⟩ := h.owned i (by rw [abandoned]; rfl)
    obtain ⟨found, -, -, -⟩ := lane_eq_some here
    exact ⟨l.talker, by rw [same]; exact found, owned.parted (by rw [abandoned]; rfl)⟩

theorem inside_talk {s : Talk.State Serializer} (h : Inside s) (event : Talk.Event Serializer) :
    Inside (Talk.step s event) := inside_step h (.event event)

/-- A step that does not push to the queue of the endpoint. -/
theorem owned_step {e : Endpoint} {stage : Stage} {s : Talk.State Serializer} {i : Nat}
    {l : Lane Serializer} {event : Talk.Event Serializer} (here : lane i s = some l) (stocked : Stocked l)
    (h : Owned e stage l) (quiet : ∀ origin msg, label i s event ≠ .push origin msg)
    (before : ResetsBefore i s event) (leaves : stage.withdrawing = true → PopLeaves i s event) :
    Owned e stage (l.step (label i s event)) where
  size := by rw [q_size_step quiet, h.size]
  closing := by
    have allowed := closing_allowed here (fun origin msg same => absurd same (quiet origin msg)) before
    exact closing_step h.closing stocked (lane_guard here event) allowed
  fresh unborn := by
    rw [announced_step quiet]
    exact h.fresh unborn
  keeping withdrawing :=
    keeping_step (h.keeping withdrawing) stocked (keeping_allowed here quiet (leaves withdrawing))
  named x pushed withdrawal := h.named x (pushed_step quiet pushed) withdrawal

/-- A message of the endpoint, before its withdrawal. -/
theorem owned_push {e : Endpoint} {stage : Stage} {l : Lane Serializer} (h : Owned e stage l)
    (early : stage.withdrawn = false) (msg : Serializer) : Owned e stage (l.step (.push .pushed msg)) where
  size := h.size
  closing := closing_push h.closing .pushed msg (h.fresh early)
  fresh _ := by
    show Announced (l.talker.push .pushed msg).log = false
    rw [announced_push, h.fresh early]
    rfl
  keeping withdrawing := by
    rw [withdrawn_of_withdrawing withdrawing] at early
    cases early
  named x pushed withdrawal := by
    rcases mem_pushed_push.mp pushed with old | rfl
    · exact h.named x old withdrawal
    · cases withdrawal

theorem owned_destroy {e : Endpoint} {stage : Stage} {l : Lane Serializer} (h : Owned e stage l)
    (early : stage.withdrawn = false) (sized : 0 < sizeT e.talker_size) (id : Bytes) (i : Nat) :
    Owned e (.pushed i) (l.step (.push .withdrawal (e.withdrawal id))) where
  size := h.size
  closing := closing_push h.closing .withdrawal _ (h.fresh early)
  fresh unborn := by cases unborn
  keeping _ := by
    refine keeping_push h.closing _ (h.fresh early) ?_
    rwa [TalkerQueue.capacity, h.size]
  named x pushed withdrawal := by
    rcases mem_pushed_push.mp pushed with old | rfl
    · exact h.named x old withdrawal
    · exact ⟨id, rfl⟩

theorem owned_stage {e : Endpoint} {stage stage' : Stage} {l : Lane Serializer} (h : Owned e stage l)
    (withdrawn : stage'.withdrawn = stage.withdrawn)
    (withdrawing : stage'.withdrawing = true → stage.withdrawing = true) : Owned e stage' l where
  size := h.size
  closing := h.closing
  fresh early := h.fresh (withdrawn ▸ early)
  keeping now := h.keeping (withdrawing now)
  named := h.named

theorem quiet_of_foreign {s : Talk.State Serializer} {i : Nat} {l : Lane Serializer}
    {event : Talk.Event Serializer} (here : lane i s = some l)
    (foreign : ¬ ((target event).isSome ∧ target event = some i)) :
    ∀ origin msg, label i s event ≠ .push origin msg := by
  intro origin msg same
  have sees := label_sees here event
  rw [same] at sees
  cases sees with
  | push msg => exact foreign ⟨rfl, rfl⟩
  | destroy msg => exact foreign ⟨rfl, rfl⟩

theorem sound_push {e : Endpoint} {s : Lifetime} {i : Nat} (h : Sound e s) (index : s.stage.index = some i)
    (early : s.stage.withdrawn = false) (msg : Serializer) :
    Sound e { s with system := Talk.step s.system (.push i msg) } where
  inside := inside_talk h.inside (.push i msg)
  owned j same := by
    obtain rfl : i = j := Option.some.inj (index.symm.trans same)
    obtain ⟨l, here, owned⟩ := h.owned i index
    refine ⟨_, lane_kept here _, ?_⟩
    rw [show label i s.system (.push i msg) = .push .pushed msg by simp [label]]
    exact owned_push owned early msg

theorem sound_construct {e : Endpoint} {s : Lifetime} (h : Sound e s) (id : Bytes) :
    Sound e (construct e s id) := by
  obtain ⟨head_msg, attaches⟩ : ∃ head_msg, e.attach id = .attach e.talker_size head_msg := by
    cases e <;> exact ⟨_, rfl⟩
  unfold construct
  rw [attaches]
  split
  · dsimp only
    split
    · rename_i grown
      refine ⟨inside_talk h.inside (.attach e.talker_size head_msg), fun i index => ?_⟩
      obtain rfl : s.system.talkers.length = i := Option.some.inj index
      refine ⟨_, lane_attached grown, rfl, closing_fresh _ _ _, fun _ => rfl, fun withdrawing => ?_,
        fun x pushed => absurd pushed List.not_mem_nil⟩
      cases withdrawing
    · exact h
  · exact h

theorem sound_listener {e : Endpoint} {s : Lifetime} (h : Sound e s) (returned : Option Object)
    (undisturbed : Undisturbed e s (.listener returned)) : Sound e (listener e s returned) := by
  unfold listener
  split
  · rename_i kind i _ index
    cases answers : e.answer s.thread returned with
    | none => exact ⟨h.inside, h.owned⟩
    | some msg =>
      have early : s.stage.withdrawn = false := by
        by_contra late
        rw [undisturbed (by simpa using late)] at answers
        cases answers
      have pushed := sound_push h index early msg
      exact ⟨pushed.inside, pushed.owned⟩
  · exact h

theorem sound_destructor {e : Endpoint} {s : Lifetime} (sized : 0 < sizeT e.talker_size) (h : Sound e s)
    (id : Bytes) : Sound e (destructor e s id) := by
  have owned := h.owned
  unfold destructor
  cases stage : s.stage with
  | unborn => exact h
  | alive i =>
    rw [stage] at owned
    refine ⟨h.inside, fun j index => ?_⟩
    obtain ⟨l, here, owns⟩ := owned j index
    exact ⟨l, here, owned_stage owns rfl fun withdrawing => by cases withdrawing⟩
  | shutdown i =>
    rw [stage] at owned
    refine ⟨inside_talk h.inside (.destroy i (e.withdrawal id)), fun j index => ?_⟩
    obtain rfl : i = j := Option.some.inj index
    obtain ⟨l, here, owns⟩ := owned i rfl
    refine ⟨_, lane_kept here _, ?_⟩
    rw [show label i s.system (.destroy i (e.withdrawal id)) = .push .withdrawal (e.withdrawal id) by
      simp [label]]
    exact owned_destroy owns rfl sized id i
  | pushed i =>
    dsimp only
    split
    · rw [stage] at owned
      refine ⟨h.inside, fun j index => ?_⟩
      obtain ⟨l, here, owns⟩ := owned j index
      exact ⟨l, here, owned_stage owns rfl fun _ => rfl⟩
    · exact h
  | joined i =>
    rw [stage] at owned
    refine ⟨inside_talk h.inside (.abandon i), fun j index => ?_⟩
    obtain rfl : i = j := Option.some.inj index
    obtain ⟨l, here, owns⟩ := owned i rfl
    have stocked := h.inside.stocked i l here
    have abandoned : Owned e (.joined i) (l.step (label i s.system (.abandon i))) :=
      owned_step here stocked owns (by simp [label]) trivial fun _ => trivial
    exact ⟨_, lane_kept here _, owned_stage abandoned rfl fun _ => rfl⟩
  | abandoned i =>
    rw [stage] at owned
    refine ⟨h.inside, fun j index => ?_⟩
    obtain ⟨l, here, owns⟩ := owned j index
    exact ⟨l, here, owned_stage owns rfl fun withdrawing => by cases withdrawing⟩
  | returned i => exact h

theorem sound_client {e : Endpoint} {s : Lifetime} (h : Sound e s) (event : Talk.Event Serializer)
    (foreign : ¬ ((target event).isSome ∧ target event = s.stage.index))
    (undisturbed : Undisturbed e s (.client event)) :
    Sound e { s with system := Talk.step s.system event } where
  inside := inside_talk h.inside event
  owned i index := by
    obtain ⟨l, here, owned⟩ := h.owned i index
    obtain ⟨before, leaves⟩ := undisturbed i index
    have quiet := quiet_of_foreign here (by rwa [← index])
    exact ⟨_, lane_kept here event, owned_step here (h.inside.stocked i l here) owned quiet before leaves⟩

theorem sound_step {e : Endpoint} {s : Lifetime} {event : Event} (sized : 0 < sizeT e.talker_size)
    (h : Sound e s) (undisturbed : Undisturbed e s event) : Sound e (step e s event) := by
  have acts : Sound e (act e s event) := by
    cases event with
    | client event =>
      unfold act
      dsimp only
      split
      · exact h
      · rename_i foreign
        exact sound_client h event foreign undisturbed
    | construct id => exact sound_construct h id
    | publish json id =>
      unfold act
      dsimp only
      split
      · rename_i p i stage
        exact sound_push h (by rw [stage]; rfl) (by rw [stage]; rfl) _
      · exact h
    | inbound msg =>
      unfold act
      dsimp only
      split
      · exact ⟨h.inside, h.owned⟩
      · exact h
    | listener returned => exact sound_listener h returned undisturbed
    | destructor id => exact sound_destructor sized h id
  unfold step
  split
  · exact h
  · exact acts

/-- The withdrawal of an endpoint is its last word, whatever runs next to its destructor, in every run
that is not disturbed. -/
theorem withdrawal_is_the_last_word {e : Endpoint} (sized : 0 < sizeT e.talker_size)
    {events : List Event} (undisturbed : Machine.Along (step e) (Undisturbed e) start events) :
    LastWord e (run e start events) ∧ Machine.Along (step e) (Parts e) start events := by
  have initially : Sound e start :=
    ⟨(inside_run .offline [] : Inside (Talk.start .offline)), by simp [start, Stage.index]⟩
  have keep : ∀ s event, Sound e s → Undisturbed e s event → Sound e (step e s event) :=
    fun _ _ h ok => sound_step sized h ok
  have sound : Sound e (run e start events) := Machine.invariant_along keep initially undisturbed
  have along := Machine.Along.with_invariant keep initially undisturbed
  exact ⟨sound.lastWord, along.imp fun _ event h => h.1.parts event⟩

/-! ### Concrete runs -/

def server : Endpoint := .serviceServer { service := ascii "/add", type := ascii "rospy/AddTwoInts" }

/-- With the default queue size of 1. -/
def publisher : Endpoint := .publisher { topic := ascii "/chatter", type := ascii "std_msgs/String" }

def clients (events : List (Talk.Event Serializer)) : List Event := events.map .client

def listens (n : Nat) : List Event := List.replicate n (.listener (some .empty))

def destroys (n : Nat) : List Event := List.replicate n (.destructor (ascii "9"))

def registered : List Event := .construct (ascii "1") :: clients (connects 1 ++ talks 8)

def request : Event := .inbound ⟨(Serializer.serviceRequest (ascii "/add") .empty (ascii "7")).json⟩

/-- The server withdraws and then answers the request that its callback was working on. -/
def unfinished : List Event :=
  registered ++ request :: listens 4 ++ destroys 2 ++ listens 3 ++ destroys 2

/-- The withdrawal drives a message out of the queue that `talk` is about to send and pop. -/
def driven : List Event :=
  registered ++ .publish .empty (ascii "2") :: clients (talks 4) ++ destroys 2 ++ clients (talks 3) ++
    destroys 3

theorem Parted.kept {e : Endpoint} {t : Talker Serializer} (h : Parted e t) : Kept t := by
  obtain ⟨x, withdrawal, -, -, ⟨session, sent⟩ | last⟩ := h
  · exact .inl (withdrawn_eq_true.mpr ⟨session, x, sent, withdrawal⟩)
  · exact .inr (by rw [last]; exact withdrawal)

theorem unfinished_is_not_last :
    ¬ LastWord server (run server start unfinished) ∧
      ¬ Machine.Along (step publisher) (Parts publisher) start driven := by
  constructor
  · intro last
    obtain ⟨t, found, silent, -⟩ := last 0 (by decide +kernel)
    have spoken : ∀ t ∈ (run server start unfinished).system.talkers[0]?, ¬ Silent t.log := by decide +kernel
    exact spoken t found silent
  · intro along
    have split : driven = driven.dropLast ++ [.destructor (ascii "9")] := by rfl
    rw [split] at along
    have parts := (Machine.along_append.mp along).2.1
    obtain ⟨t, found, parted⟩ := parts 0 (by decide +kernel) (by decide +kernel)
    have lost : ∀ t ∈ (run publisher start driven).system.talkers[0]?, ¬ Kept t := by decide +kernel
    exact lost t found parted.kept

/-- The request is finished, and the withdrawal is sent, before the thread is joined. -/
def finished : List Event :=
  registered ++ request :: listens 6 ++ destroys 1 ++ listens 1 ++ destroys 1 ++ clients (talks 16) ++
    destroys 3

theorem withdrawal_is_the_last_word_finished :
    (run server start finished).stage = .returned 0 ∧ LastWord server (run server start finished) ∧
      Machine.Along (step server) (Parts server) start finished :=
  have undisturbed : Machine.Along (step server) (Undisturbed server) start finished := by
    decide +kernel
  ⟨by decide +kernel, withdrawal_is_the_last_word (by decide) undisturbed⟩

end Lifetime

end Rosbridge
