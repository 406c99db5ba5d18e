import Rosbridge.Library.Machine
import Rosbridge.Queues
import Rosbridge.Unserializer

/-!
# The receiver threads (`Subscriber::listener`, `ServiceServer::listener`)

The network pushes into a listener queue, a thread takes from it and calls back, and a destructor
asks the thread to stop, interleaved at their atomic steps. The callback takes one step to start and
one to end, with any steps in between. A message carries the number of its arrival, which no step
reads.
-/

namespace Rosbridge.Listen

open Unserializer

structure Letter where
  ticket : Nat
  msg : Unserializer

inductive Kind where
  | subscriber
  | serviceServer (service : Bytes)

/-- `popped` is what `pop` took off, and the message that the thread had read with `next`. -/
inductive Entry where
  | pushed (x : Letter)
  | evicted (x : Letter)
  | called (x : Letter) (payload : Object)
  | responded (x : Letter) (msg : Serializer)
  | popped (removed taken : Letter)

/-- Before the call of that name; `callback` while the callback runs. An exception that leaves the
thread terminates the process. -/
inductive Pc where
  | check
  | empty
  | next
  | payload (x : Letter)
  | callback (x : Letter) (payload : Object)
  | pop (x : Letter)
  | done
  | terminated
  | undefined

def Pc.taken : Pc → Option Letter
  | .payload x => some x
  | .callback x _ => some x
  | .pop x => some x
  | _ => none

def Pc.handed : Pc → Option Letter
  | .callback x _ => some x
  | .pop x => some x
  | _ => none

structure State where
  queue : ListenerQueue Letter
  tickets : Nat := 0
  shutdown_requested : Bool := false
  pc : Pc := .check
  log : List Entry := []

inductive Event where
  | push (msg : Unserializer)
  | shutdown
  | listener (returned : Option Object)

def push (s : State) (msg : Unserializer) : State :=
  let x : Letter := ⟨s.tickets, msg⟩
  { s with
    queue := s.queue.push x
    tickets := s.tickets + 1
    log := s.log ++ .pushed x :: (overflow s.queue.capacity (s.queue.q ++ [x])).map .evicted }

/-- The response that `ServiceServer::listener` pushes to its talker queue. -/
def response (service : Bytes) (x : Letter) (values : Object) : Except Exn Serializer := do
  let id ← ((x.msg.payload).2.id).1
  return .serviceResponse service values true id

/-- One step of the thread; `returned` is what the callback returns, or nothing when it throws. -/
def listener (kind : Kind) (s : State) (returned : Option Object) : State :=
  match s.pc with
  | .check => if s.shutdown_requested then { s with pc := .done } else { s with pc := .empty }
  | .empty => if s.queue.empty then { s with pc := .check } else { s with pc := .next }
  | .next =>
    match s.queue.next with
    | none => { s with pc := .undefined }
    | some x => { s with pc := .payload x }
  | .payload x =>
    match (x.msg.payload).1, kind with
    | .ok payload, _ => { s with pc := .callback x payload, log := s.log ++ [.called x payload] }
    -- Only `ServiceServer::listener` catches.
    | .error _, .subscriber => { s with pc := .terminated }
    | .error _, .serviceServer _ => { s with pc := .pop x }
  | .callback x _ =>
    match kind, returned with
    | .subscriber, some _ => { s with pc := .pop x }
    | .subscriber, none => { s with pc := .terminated }
    | .serviceServer service, some values =>
      match response service x values with
      | .ok msg => { s with pc := .pop x, log := s.log ++ [.responded x msg] }
      | .error _ => { s with pc := .pop x }
    | .serviceServer _, none => { s with pc := .pop x }
  | .pop x =>
    match s.queue.next, s.queue.pop with
    | some removed, some queue =>
      { s with queue := queue, pc := .check, log := s.log ++ [.popped removed x] }
    | _, _ => { s with pc := .undefined }
  | .done => s
  | .terminated => s
  | .undefined => s

/-- After `std::terminate` there is no process. -/
def step (kind : Kind) (s : State) (e : Event) : State :=
  match s.pc, e with
  | .terminated, _ => s
  | _, .push msg => push s msg
  | _, .shutdown => { s with shutdown_requested := true }
  | _, .listener returned => listener kind s returned

abbrev run (kind : Kind) (s : State) (events : List Event) : State := Machine.run (step kind) s events

def start (queue_size : Int32) : State where
  queue := .new queue_size

inductive Moves (kind : Kind) (s : State) : State → Prop where
  | stays : Moves kind s s
  | rests {pc : Pc} (before : s.pc.taken = none) (after : pc.taken = none) :
      Moves kind s { s with pc := pc }
  | reads (x : Letter) (pc : s.pc = .next) (next : s.queue.next = some x) :
      Moves kind s { s with pc := .payload x }
  | calls (x : Letter) (payload : Object) (pc : s.pc = .payload x)
      (value : (x.msg.payload).1 = .ok payload) :
      Moves kind s { s with pc := .callback x payload, log := s.log ++ [.called x payload] }
  | drops (x : Letter) (service : Bytes) (e : Exn) (server : kind = .serviceServer service)
      (pc : s.pc = .payload x) (thrown : (x.msg.payload).1 = .error e) :
      Moves kind s { s with pc := .pop x }
  | returns (x : Letter) (payload : Object) (pc : s.pc = .callback x payload) :
      Moves kind s { s with pc := .pop x }
  | answers (x : Letter) (payload : Object) (msg : Serializer) (pc : s.pc = .callback x payload) :
      Moves kind s { s with pc := .pop x, log := s.log ++ [.responded x msg] }
  | terminates (x : Letter) (held : s.pc.taken = some x) : Moves kind s { s with pc := .terminated }
  | pops (x removed : Letter) (queue : ListenerQueue Letter) (pc : s.pc = .pop x)
      (next : s.queue.next = some removed) (pop : s.queue.pop = some queue) :
      Moves kind s { s with queue := queue, pc := .check, log := s.log ++ [.popped removed x] }
  | stuck (x : Letter) (pc : s.pc = .pop x) (empty : s.queue.next = none) :
      Moves kind s { s with pc := .undefined }

theorem listener_moves (kind : Kind) (s : State) (returned : Option Object) :
    Moves kind s (listener kind s returned) := by
  have rests {pc : Pc} (before : s.pc.taken = none) (after : pc.taken = none) :
      Moves kind s { s with pc := pc } := .rests before after
  unfold listener
  cases pc : s.pc with
  | check =>
    dsimp only
    split <;> exact rests (by rw [pc]; rfl) rfl
  | empty =>
    dsimp only
    split <;> exact rests (by rw [pc]; rfl) rfl
  | next =>
    dsimp only
    split
    · exact rests (by rw [pc]; rfl) rfl
    · rename_i x next
      exact .reads x pc next
  | payload x =>
    dsimp only
    split
    · rename_i payload value
      exact .calls x payload pc value
    · exact .terminates x (by rw [pc]; rfl)
    · rename_i e service thrown
      exact .drops x service e rfl pc thrown
  | callback x payload =>
    dsimp only
    split
    · exact .returns x payload pc
    · exact .terminates x (by rw [pc]; rfl)
    · split
      · rename_i msg _
        exact .answers x payload msg pc
      · exact .returns x payload pc
    · exact .returns x payload pc
  | pop x =>
    dsimp only
    split
    · rename_i removed queue next pop
      exact .pops x removed queue pc next pop
    · rename_i stuck
      refine .stuck x pc ?_
      cases next : s.queue.next with
      | none => rfl
      | some y =>
        obtain ⟨rest, contents⟩ := List.head?_eq_some_iff.mp next
        exact absurd (by simp [ListenerQueue.pop, contents]) (stuck y { s.queue with q := rest } next)
  | done => exact .stays
  | terminated => exact .stays
  | undefined => exact .stays

theorem listener_shutdown (kind : Kind) (s : State) (returned : Option Object) :
    (listener kind s returned).shutdown_requested = s.shutdown_requested := by
  have moves := listener_moves kind s returned
  generalize listener kind s returned = t at moves
  cases moves <;> rfl

/-! ### What the thread owes -/

def Entry.called? : Entry → Option Letter
  | .called x _ => some x
  | _ => none

def Entry.evicted? : Entry → Option Letter
  | .evicted x => some x
  | _ => none

def calls (log : List Entry) : List Letter := log.filterMap Entry.called?

def dropped (log : List Entry) : List Letter := log.filterMap Entry.evicted?

def Earlier (x y : Letter) : Prop := x.ticket < y.ticket

/-- Every `pop` removed the message whose payload was handed to the callback. A message that came
in is queued, or was handed over, or fell to the overflow loop before it could be. Messages are
handed over in the order they came in, so none is handed over twice. -/
structure Faithful (s : State) : Prop where
  popped : ∀ removed taken, .popped removed taken ∈ s.log →
    removed = taken ∧ ∃ payload, .called taken payload ∈ s.log ∧ (taken.msg.payload).1 = .ok payload
  accounted : ∀ x, .pushed x ∈ s.log → x ∈ s.queue.q ∨ x ∈ calls s.log ∨ x ∈ dropped s.log
  apart : ∀ x ∈ dropped s.log, x ∉ calls s.log
  ordered : (calls s.log).Pairwise Earlier

/-- No push overflows the queue between `next` and `pop`, and a `ServiceServer` takes no message
without a payload. -/
def Undisturbed (kind : Kind) (s : State) : Event → Bool
  | .push _ => s.pc.taken.isNone || s.queue.q.length < s.queue.capacity
  | .shutdown => true
  | .listener _ =>
    match kind, s.pc with
    | .serviceServer _, .payload x => (x.msg.payload).1.isOk
    | _, _ => true

/-! ### The invariant -/

def State.waiting (s : State) : List Letter :=
  if s.pc.handed.isSome then s.queue.q.tail else s.queue.q

structure Sound (s : State) : Prop where
  front : ∀ x, s.pc.taken = some x → s.queue.q.head? = some x
  handed : ∀ x, s.pc.handed = some x → ∃ payload, .called x payload ∈ s.log
  honest : ∀ x payload, .called x payload ∈ s.log → (x.msg.payload).1 = .ok payload
  popped : ∀ removed taken, .popped removed taken ∈ s.log →
    removed = taken ∧ ∃ payload, .called taken payload ∈ s.log
  accounted : ∀ x, .pushed x ∈ s.log → x ∈ s.queue.q ∨ x ∈ calls s.log ∨ x ∈ dropped s.log
  apart : ∀ x ∈ dropped s.log, x ∉ calls s.log
  ordered : (calls s.log).Pairwise Earlier
  order : s.pc = .terminated ∨ (calls s.log ++ s.waiting).Pairwise Earlier
  early : ∀ x ∈ dropped s.log, ∀ y ∈ s.queue.q, Earlier x y
  issued : ∀ x ∈ calls s.log ++ s.queue.q ++ dropped s.log, x.ticket < s.tickets

theorem Sound.faithful {s : State} (h : Sound s) : Faithful s where
  popped removed taken member := by
    obtain ⟨same, payload, called⟩ := h.popped removed taken member
    exact ⟨same, payload, called, h.honest taken payload called⟩
  accounted := h.accounted
  apart := h.apart
  ordered := h.ordered

theorem mem_calls {log : List Entry} {x : Letter} : x ∈ calls log ↔ ∃ payload, .called x payload ∈ log := by
  simp only [calls, List.mem_filterMap]
  constructor
  · rintro ⟨entry, member, same⟩
    cases entry with
    | called y payload =>
      obtain rfl := Option.some.inj same
      exact ⟨payload, member⟩
    | _ => cases same
  · rintro ⟨payload, member⟩
    exact ⟨_, member, rfl⟩

theorem calls_append (log new : List Entry) : calls (log ++ new) = calls log ++ calls new :=
  List.filterMap_append

theorem dropped_append (log new : List Entry) : dropped (log ++ new) = dropped log ++ dropped new :=
  List.filterMap_append

theorem dropped_evicted (xs : List Letter) : dropped (xs.map .evicted) = xs := by
  induction xs with
  | nil => rfl
  | cons x rest ih => exact congrArg (x :: ·) ih

def lost (s : State) (msg : Unserializer) : List Letter :=
  overflow s.queue.capacity (s.queue.q ++ [⟨s.tickets, msg⟩])

theorem calls_push (s : State) (msg : Unserializer) : calls (push s msg).log = calls s.log := by
  rw [push, calls_append]
  simp [calls, Entry.called?]

theorem dropped_push (s : State) (msg : Unserializer) :
    dropped (push s msg).log = dropped s.log ++ lost s msg := by
  rw [push, dropped_append]
  exact congrArg (dropped s.log ++ ·) (dropped_evicted _)

theorem lost_append_push (s : State) (msg : Unserializer) :
    lost s msg ++ (push s msg).queue.q = s.queue.q ++ [⟨s.tickets, msg⟩] :=
  s.queue.overflow_append_push _

theorem sound_start (queue_size : Int32) : Sound (start queue_size) := by
  constructor <;> simp [start, ListenerQueue.new, Pc.taken, Pc.handed, calls, dropped, State.waiting]

/-- A step of the thread that neither touches the queue nor starts a callback. -/
theorem sound_moves {s : State} (h : Sound s) {pc : Pc}
    (front : ∀ x, pc.taken = some x → s.queue.q.head? = some x) (handed : pc.handed = s.pc.handed)
    (alive : s.pc ≠ .terminated) : Sound { s with pc := pc } where
  front := front
  handed x begun := h.handed x (by rw [← handed]; exact begun)
  honest := h.honest
  popped := h.popped
  accounted := h.accounted
  apart := h.apart
  ordered := h.ordered
  order := by
    refine .inr ?_
    rw [show State.waiting { s with pc := pc } = s.waiting by simp [State.waiting, handed]]
    exact h.order.resolve_left alive
  early := h.early
  issued := h.issued

theorem taken_of_handed {pc : Pc} {x : Letter} (handed : pc.handed = some x) : pc.taken = some x := by
  cases pc <;> simp_all [Pc.handed, Pc.taken]

theorem handed_of_idle {pc : Pc} (idle : pc.taken = none) : pc.handed = none := by
  cases handed : pc.handed with
  | none => rfl
  | some x => simp [taken_of_handed handed] at idle

theorem not_earlier_self (x : Letter) : ¬ Earlier x x := Nat.lt_irrefl x.ticket

/-- The new message is the latest of all. -/
theorem Sound.order_push {s : State} (h : Sound s) (alive : s.pc ≠ .terminated) (msg : Unserializer) :
    (calls s.log ++ s.waiting ++ [(⟨s.tickets, msg⟩ : Letter)]).Pairwise Earlier := by
  refine List.pairwise_append.mpr ⟨h.order.resolve_left alive, List.pairwise_singleton _ _, ?_⟩
  intro y before x last
  rw [List.mem_singleton.mp last]
  apply h.issued y
  rcases List.mem_append.mp before with called | waits
  · exact List.mem_append_left _ (List.mem_append_left _ called)
  · have queued : y ∈ s.queue.q := by
      unfold State.waiting at waits
      split at waits
      · exact List.mem_of_mem_tail waits
      · exact waits
    exact List.mem_append_left _ (List.mem_append_right _ queued)

/-- What a push does to the queue: while the thread holds a message nothing is lost, otherwise
everything in the queue waits. -/
theorem push_cases {s : State} (h : Sound s) (msg : Unserializer)
    (room : s.pc.taken = none ∨ s.queue.q.length < s.queue.capacity) :
    (lost s msg = [] ∧ (push s msg).queue.q = s.queue.q ++ [⟨s.tickets, msg⟩] ∧
      (push s msg).waiting = s.waiting ++ [⟨s.tickets, msg⟩]) ∨
    (s.pc.taken = none ∧ s.waiting = s.queue.q ∧ (push s msg).waiting = (push s msg).queue.q) := by
  by_cases roomy : s.queue.q.length < s.queue.capacity
  · have kept : (push s msg).queue.q = s.queue.q ++ [⟨s.tickets, msg⟩] :=
      s.queue.push_q_of_room _ roomy
    have fits : (s.queue.q ++ [(⟨s.tickets, msg⟩ : Letter)]).length ≤ s.queue.capacity := by
      simp only [List.length_append, List.length_singleton]
      omega
    refine .inl ⟨overflow_of_fits fits, kept, ?_⟩
    unfold State.waiting
    rw [kept, show (push s msg).pc = s.pc from rfl]
    cases handed : s.pc.handed with
    | none => rfl
    | some y =>
      obtain ⟨rest, contents⟩ := List.head?_eq_some_iff.mp (h.front y (taken_of_handed handed))
      simp [contents]
  · have away := room.resolve_right roomy
    have idle : s.pc.handed = none := handed_of_idle away
    exact .inr ⟨away, by simp [State.waiting, idle],
      by simp [State.waiting, show (push s msg).pc = s.pc from rfl, idle]⟩

theorem push_order {s : State} (h : Sound s) (alive : s.pc ≠ .terminated) (msg : Unserializer)
    (room : s.pc.taken = none ∨ s.queue.q.length < s.queue.capacity) :
    (calls s.log ++ (push s msg).waiting).Pairwise Earlier ∧
      ∀ x ∈ lost s msg, x ∉ calls s.log ∧ ∀ y ∈ (push s msg).queue.q, Earlier x y := by
  have latest := h.order_push alive msg
  rcases push_cases h msg room with ⟨none, -, waiting⟩ | ⟨-, waiting, waiting'⟩
  · rw [waiting, ← List.append_assoc]
    exact ⟨latest, by simp [none]⟩
  · rw [waiting, List.append_assoc, ← lost_append_push s msg] at latest
    obtain ⟨called, queued, between⟩ := List.pairwise_append.mp latest
    obtain ⟨-, kept, apart⟩ := List.pairwise_append.mp queued
    rw [waiting']
    refine ⟨List.pairwise_append.mpr ⟨called, kept, fun x before y after => ?_⟩, fun x member => ⟨?_, ?_⟩⟩
    · exact between x before y (List.mem_append_right _ after)
    · intro before
      exact not_earlier_self x (between x before x (List.mem_append_left _ member))
    · exact apart x member

/-- What was queued before a push is what it throws away and what is queued after it. -/
theorem mem_of_push {s : State} {msg : Unserializer} {x : Letter}
    (member : x ∈ lost s msg ∨ x ∈ (push s msg).queue.q) : x ∈ s.queue.q ∨ x = ⟨s.tickets, msg⟩ := by
  rw [← List.mem_append, lost_append_push] at member
  simpa using member

/-- A push logs itself and what it throws away. -/
theorem mem_push_log {s : State} (msg : Unserializer) {e : Entry}
    (other : ∀ x, e ≠ .pushed x ∧ e ≠ .evicted x) : e ∈ (push s msg).log ↔ e ∈ s.log := by
  simp only [push, List.mem_append, List.mem_cons, List.mem_map]
  constructor
  · rintro (old | new | ⟨x, -, new⟩)
    · exact old
    · exact absurd new (other _).1
    · exact absurd new.symm (other x).2
  · exact .inl

theorem Sound.accounted_push {s : State} (h : Sound s) {msg : Unserializer} {x : Letter}
    (member : .pushed x ∈ (push s msg).log) :
    x ∈ (push s msg).queue.q ∨ x ∈ calls s.log ∨ x ∈ dropped s.log ++ lost s msg := by
  have known : x ∈ s.queue.q ++ [⟨s.tickets, msg⟩] ∨ x ∈ calls s.log ∨ x ∈ dropped s.log := by
    simp only [push, List.mem_append, List.mem_cons, List.mem_map, reduceCtorEq, and_false,
      exists_false, or_false, Entry.pushed.injEq] at member
    rcases member with old | rfl
    · exact (h.accounted x old).imp_left (List.mem_append_left _)
    · exact .inl (List.mem_append_right _ List.mem_cons_self)
  rcases known with queued | called | gone
  · rw [← lost_append_push] at queued
    rcases List.mem_append.mp queued with fell | kept
    · exact .inr (.inr (List.mem_append_right _ fell))
    · exact .inl kept
  · exact .inr (.inl called)
  · exact .inr (.inr (List.mem_append_left _ gone))

theorem Sound.issued_push {s : State} (h : Sound s) {msg : Unserializer} {x : Letter}
    (member : x ∈ calls s.log ++ (push s msg).queue.q ++ (dropped s.log ++ lost s msg)) :
    x.ticket < s.tickets + 1 := by
  have known : x ∈ calls s.log ++ s.queue.q ++ dropped s.log ∨ x = ⟨s.tickets, msg⟩ := by
    simp only [List.mem_append] at member ⊢
    rcases member with (called | queued) | gone | fell
    · exact .inl (.inl (.inl called))
    · exact (mem_of_push (.inr queued)).imp_left fun old => .inl (.inr old)
    · exact .inl (.inr gone)
    · exact (mem_of_push (.inl fell)).imp_left fun old => .inl (.inr old)
  rcases known with old | rfl
  · have before := h.issued x old
    omega
  · exact Nat.lt_succ_self _

theorem sound_push {s : State} (h : Sound s) (alive : s.pc ≠ .terminated) (msg : Unserializer)
    (room : s.pc.taken = none ∨ s.queue.q.length < s.queue.capacity) : Sound (push s msg) := by
  obtain ⟨order, early⟩ := push_order h alive msg room
  have called (x : Letter) (payload : Object) :
      .called x payload ∈ (push s msg).log ↔ .called x payload ∈ s.log := mem_push_log msg (by simp)
  refine ⟨fun x taken => ?_, fun x begun => ?_, fun x payload member => ?_, fun removed taken member => ?_,
    fun x member => ?_, fun x member => ?_, ?_, .inr ?_, fun x member y queued => ?_, fun x member => ?_⟩
  · rcases push_cases h msg room with ⟨-, kept, -⟩ | ⟨away, -, -⟩
    · rw [kept, List.head?_append, h.front x taken]
      rfl
    · simp [show s.pc.taken = some x from taken] at away
  · obtain ⟨payload, old⟩ := h.handed x begun
    exact ⟨payload, (called x payload).mpr old⟩
  · exact h.honest x payload ((called x payload).mp member)
  · obtain ⟨same, payload, old⟩ := h.popped removed taken ((mem_push_log msg (by simp)).mp member)
    exact ⟨same, payload, (called taken payload).mpr old⟩
  · rw [calls_push, dropped_push]
    exact h.accounted_push member
  · rw [dropped_push] at member
    rw [calls_push]
    rcases List.mem_append.mp member with old | fell
    · exact h.apart x old
    · exact (early x fell).1
  · rw [calls_push]
    exact h.ordered
  · rw [calls_push]
    exact order
  · rw [dropped_push] at member
    rcases List.mem_append.mp member with old | fell
    · rcases mem_of_push (.inr queued) with queued | rfl
      · exact h.early x old y queued
      · exact h.issued x (List.mem_append_right _ old)
    · exact (early x fell).2 y queued
  · rw [calls_push, dropped_push] at member
    exact h.issued_push member

theorem sound_call {s : State} (h : Sound s) {x : Letter} {payload : Object} (pc : s.pc = .payload x)
    (value : (x.msg.payload).1 = .ok payload) :
    Sound { s with pc := .callback x payload, log := s.log ++ [.called x payload] } := by
  obtain ⟨rest, contents⟩ := List.head?_eq_some_iff.mp (h.front x (by rw [pc]; rfl))
  have grown : calls (s.log ++ [.called x payload]) = calls s.log ++ [x] := calls_append _ _
  have same : dropped (s.log ++ [.called x payload]) = dropped s.log := by
    rw [dropped_append]
    exact List.append_nil _
  have waiting : s.waiting = x :: rest := by
    rw [State.waiting, pc, contents]
    rfl
  have order : (calls s.log ++ [x] ++ rest).Pairwise Earlier := by
    have before := h.order.resolve_left (by simp [pc])
    rwa [waiting, ← List.singleton_append, ← List.append_assoc] at before
  refine ⟨fun y taken => ?_, fun y begun => ?_, fun y payload' member => ?_, fun removed taken member => ?_,
    fun y member => ?_, fun y member => ?_, ?_, .inr ?_, ?_, fun y member => ?_⟩
  · obtain rfl : x = y := by simpa [Pc.taken] using taken
    simp [contents]
  · obtain rfl : x = y := by simpa [Pc.handed] using begun
    exact ⟨payload, by simp⟩
  · simp only [List.mem_append, List.mem_singleton, Entry.called.injEq] at member
    rcases member with old | ⟨rfl, rfl⟩
    · exact h.honest y payload' old
    · exact value
  · obtain ⟨same, payload', old⟩ := h.popped removed taken (by simpa using member)
    exact ⟨same, payload', List.mem_append_left _ old⟩
  · rw [grown, same]
    rcases h.accounted y (by simpa using member) with queued | called | gone
    · exact .inl queued
    · exact .inr (.inl (List.mem_append_left _ called))
    · exact .inr (.inr gone)
  · rw [same] at member
    rw [grown]
    intro called
    rcases List.mem_append.mp called with old | new
    · exact h.apart y member old
    · rw [List.mem_singleton.mp new] at member
      exact not_earlier_self x (h.early x member x (by simp [contents]))
  · rw [grown]
    exact (List.pairwise_append.mp order).1
  · rw [grown]
    have after : State.waiting { s with pc := .callback x payload } = rest := by
      simp [State.waiting, Pc.handed, contents]
    show (calls s.log ++ [x] ++ State.waiting { s with pc := .callback x payload }).Pairwise Earlier
    rwa [after]
  · rw [same]
    exact h.early
  · rw [grown, same] at member
    have queued : x ∈ s.queue.q := by simp [contents]
    simp only [List.mem_append, List.mem_singleton] at member
    apply h.issued y
    simp only [List.mem_append]
    rcases member with ((called | rfl) | queued') | gone
    · exact .inl (.inl called)
    · exact .inl (.inr queued)
    · exact .inl (.inr queued')
    · exact .inr gone

theorem sound_responded {s : State} (h : Sound s) (x : Letter) (msg : Serializer) :
    Sound { s with log := s.log ++ [.responded x msg] } := by
  have same : calls (s.log ++ [.responded x msg]) = calls s.log := by simp [calls, Entry.called?]
  have same' : dropped (s.log ++ [.responded x msg]) = dropped s.log := by simp [dropped, Entry.evicted?]
  obtain ⟨front, handed, honest, popped, accounted, apart, ordered, order, early, issued⟩ := h
  constructor
  · exact front
  · simpa using handed
  · simpa using honest
  · simpa using popped
  · simpa [same, same'] using accounted
  · simpa only [same, same'] using apart
  · simpa only [same] using ordered
  · show s.pc = .terminated ∨ (calls (s.log ++ [.responded x msg]) ++ s.waiting).Pairwise Earlier
    rwa [same]
  · simpa only [same'] using early
  · simpa only [same, same'] using issued

theorem sound_pop {s : State} (h : Sound s) {x removed : Letter} {queue : ListenerQueue Letter}
    (pc : s.pc = .pop x) (next : s.queue.next = some removed) (pop : s.queue.pop = some queue) :
    Sound { s with queue := queue, pc := .check, log := s.log ++ [.popped removed x] } := by
  obtain ⟨y, rest, contents, rfl⟩ := ListenerQueue.pop_cases pop
  have front := h.front x (by rw [pc]; rfl)
  obtain rfl : x = removed := Option.some.inj (front.symm.trans next)
  obtain rfl : x = y := by simpa [contents] using front.symm
  obtain ⟨payload, called⟩ := h.handed x (by rw [pc]; rfl)
  have same : calls (s.log ++ [.popped x x]) = calls s.log := by simp [calls, Entry.called?]
  have same' : dropped (s.log ++ [.popped x x]) = dropped s.log := by simp [dropped, Entry.evicted?]
  have order := h.order.resolve_left (by simp [pc])
  have waiting : s.waiting = rest := by simp [State.waiting, pc, Pc.handed, contents]
  have subset : ∀ z ∈ rest, z ∈ s.queue.q := by
    intro z member
    rw [contents]
    exact List.mem_cons_of_mem _ member
  refine ⟨by simp [Pc.taken], by simp [Pc.handed], fun z payload' member => ?_,
    fun removed taken member => ?_, fun z member => ?_, ?_, ?_, .inr ?_, ?_, fun z member => ?_⟩
  · exact h.honest z payload' (by simpa using member)
  · simp only [List.mem_append, List.mem_singleton, Entry.popped.injEq] at member
    rcases member with old | ⟨rfl, rfl⟩
    · obtain ⟨same, payload', called'⟩ := h.popped removed taken old
      exact ⟨same, payload', List.mem_append_left _ called'⟩
    · exact ⟨rfl, payload, List.mem_append_left _ called⟩
  · rw [same, same']
    rcases h.accounted z (by simpa using member) with queued | elsewhere
    · rw [contents] at queued
      rcases List.mem_cons.mp queued with rfl | kept
      · exact .inr (.inl (mem_calls.mpr ⟨payload, called⟩))
      · exact .inl kept
    · exact .inr elsewhere
  · rw [same, same']
    exact h.apart
  · rw [same]
    exact h.ordered
  · rw [same]
    show (calls s.log ++ rest).Pairwise Earlier
    rwa [← waiting]
  · rw [same']
    exact fun z gone w queued => h.early z gone w (subset w queued)
  · rw [same, same'] at member
    apply h.issued z
    simp only [List.mem_append] at member ⊢
    exact member.imp_left fun here => here.imp_right (subset z)

theorem sound_terminated {s : State} (h : Sound s) : Sound { s with pc := .terminated } where
  front := by simp [Pc.taken]
  handed := by simp [Pc.handed]
  honest := h.honest
  popped := h.popped
  accounted := h.accounted
  apart := h.apart
  ordered := h.ordered
  order := .inl rfl
  early := h.early
  issued := h.issued

theorem sound_listener {kind : Kind} {s : State} (h : Sound s) (alive : s.pc ≠ .terminated)
    {returned : Option Object} (ok : Undisturbed kind s (.listener returned) = true) :
    Sound (listener kind s returned) := by
  have moves := listener_moves kind s returned
  generalize listener kind s returned = t at moves
  have finish {t : State} {x : Letter} {payload : Object} (sound : Sound t)
      (pc : t.pc = .callback x payload) : Sound { t with pc := .pop x } :=
    sound_moves sound (fun y taken => sound.front y (by simpa [pc, Pc.taken] using taken))
      (by simp [pc, Pc.handed]) (by simp [pc])
  cases moves with
  | stays => exact h
  | rests before after =>
    exact sound_moves h (by simp [after]) (by rw [handed_of_idle before, handed_of_idle after]) alive
  | reads x pc next =>
    refine sound_moves h (fun y taken => ?_) (by simp [pc, Pc.handed]) alive
    obtain rfl : x = y := by simpa [Pc.taken] using taken
    exact next
  | calls x payload pc value => exact sound_call h pc value
  | drops x service e server pc thrown =>
    simp [Undisturbed, server, pc, thrown, Except.isOk, Except.toBool] at ok
  | returns x payload pc => exact finish h pc
  | answers x payload msg pc => exact finish (sound_responded h x msg) pc
  | terminates x held => exact sound_terminated h
  | pops x removed queue pc next pop => exact sound_pop h pc next pop
  | stuck x pc empty =>
    have front : s.queue.next = some x := h.front x (by rw [pc]; rfl)
    simp [empty] at front

theorem sound_step {kind : Kind} {s : State} {e : Event} (h : Sound s)
    (ok : Undisturbed kind s e = true) : Sound (step kind s e) := by
  unfold step
  split
  · exact h
  · rename_i msg alive
    refine sound_push h alive msg ?_
    simp only [Undisturbed, Bool.or_eq_true, Option.isNone_iff_eq_none, decide_eq_true_eq] at ok
    exact ok
  · exact ⟨h.front, h.handed, h.honest, h.popped, h.accounted, h.apart, h.ordered, h.order, h.early,
      h.issued⟩
  · rename_i returned alive
    exact sound_listener h alive ok

/-! ### Every run -/

/-- No message is lost by a receiver thread that is undisturbed. -/
theorem listener_loses_nothing (kind : Kind) (queue_size : Int32) (events : List Event)
    (undisturbed : Machine.Along (step kind) (fun s e => Undisturbed kind s e = true)
      (start queue_size) events) : Faithful (run kind (start queue_size) events) := by
  have sound : Sound (run kind (start queue_size) events) :=
    Machine.invariant_along (fun _ _ => sound_step) (sound_start queue_size) undisturbed
  exact sound.faithful

def publication : Unserializer where
  json := (Serializer.topicMessage (ascii "/chatter") .empty (ascii "1")).json

def request : Unserializer where
  json := (Serializer.serviceRequest (ascii "/add") .empty (ascii "1")).json

def server : Kind := .serviceServer (ascii "/add")

def listens (n : Nat) : List Event := List.replicate n (.listener (some .empty))

def unhurried (msg : Unserializer) : List Event :=
  .push msg :: listens 6 ++ .push msg :: listens 6 ++ [.shutdown]

theorem listener_loses_nothing_unhurried :
    Faithful (run .subscriber (start 1) (unhurried publication)) ∧
      Faithful (run server (start 1) (unhurried request)) := by
  have subscriber : Machine.Along (step .subscriber)
      (fun s e => Undisturbed .subscriber s e = true) (start 1) (unhurried publication) := by
    decide +kernel
  have serviceServer : Machine.Along (step server)
      (fun s e => Undisturbed server s e = true) (start 1) (unhurried request) := by decide +kernel
  exact ⟨listener_loses_nothing _ 1 _ subscriber, listener_loses_nothing _ 1 _ serviceServer⟩

def Entry.mismatched : Entry → Bool
  | .popped removed taken => removed.ticket ≠ taken.ticket
  | _ => false

/-- A queue of size one: the second message comes in while the callback has the first. -/
def overtaken (msg : Unserializer) : List Event :=
  .push msg :: listens 4 ++ .push msg :: listens 2

theorem not_faithful_of_mismatched {s : State} (mismatch : s.log.any Entry.mismatched = true) :
    ¬ Faithful s := by
  intro faithful
  obtain ⟨entry, logged, different⟩ := List.any_eq_true.mp mismatch
  cases entry with
  | popped removed taken =>
    rw [(faithful.popped removed taken logged).1] at different
    simp [Entry.mismatched] at different
  | _ => cases different

theorem overtaken_is_not_heard :
    ¬ Faithful (run .subscriber (start 1) (overtaken publication)) ∧
      ¬ Faithful (run server (start 1) (overtaken request)) := by
  refine ⟨not_faithful_of_mismatched ?_, not_faithful_of_mismatched ?_⟩ <;> decide +kernel

end Rosbridge.Listen
