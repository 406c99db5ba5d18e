import Rosbridge.Library.Machine
import Rosbridge.Queues

/-!
# The sender loop and the connection

`RosbridgeClient::talk` on the timer thread, the producers of the talker queues, the websocket and
the `resetTalkers` of its open handler, interleaved at their atomic steps. A step of `talk` is one
call: `active`, `empty`, `next`, the check inside `Connection::send`, `message_sender`, `pop`.

Queued messages carry a slip that says where they come from, and each queue a log of what happened
to it. No step reads a slip or a log.
-/

namespace Rosbridge.Talk

variable {M : Type}

/-- The head message of the queue, the n-th message pushed to it, or the n-th pushed by the
destructor of its endpoint. -/
inductive Origin where
  | head
  | pushed (ticket : Nat)
  | withdrawal (ticket : Nat)
  deriving DecidableEq, Repr

structure Slip (M : Type) where
  origin : Origin
  msg : M

def Slip.isHead (x : Slip M) : Bool := x.origin = .head

def Slip.isWithdrawal (x : Slip M) : Bool :=
  match x.origin with
  | .withdrawal _ => true
  | _ => false

/-- `sent` names the session that took the message, and `popped` what `pop` took off, the message
that `talk` had read with `next`, and the session whose `message_sender` accepted it. -/
inductive Entry (M : Type) where
  | pushed (x : Slip M)
  | evicted (x : Slip M)
  | sent (session : Nat) (x : Slip M)
  | popped (removed taken : Slip M) (accepted : Option Nat)

structure Talker (M : Type) where
  queue : TalkerQueue (Slip M)
  tickets : Nat := 0
  log : List (Entry M) := []

namespace Talker

def new (queue_size : Int32) (head_msg : M) : Talker M :=
  { queue := .new queue_size ⟨.head, head_msg⟩ }

def push (t : Talker M) (origin : Nat → Origin) (msg : M) : Talker M :=
  let x : Slip M := ⟨origin t.tickets, msg⟩
  { queue := t.queue.push x
    tickets := t.tickets + 1
    log := t.log ++ .pushed x :: (overflow t.queue.capacity (t.queue.q ++ [x])).map .evicted }

def abandon (t : Talker M) : Talker M := { t with queue := t.queue.abandon }

def reset (t : Talker M) : Talker M := { t with queue := t.queue.reset }

def transmit (t : Talker M) (x : Slip M) : Option Nat → Talker M
  | some session => { t with log := t.log ++ [.sent session x] }
  | none => t

def pop (t : Talker M) (taken : Slip M) (accepted : Option Nat) : Option (Talker M) :=
  match t.queue.next, t.queue.pop with
  | some removed, some queue =>
    some { t with queue := queue, log := t.log ++ [.popped removed taken accepted] }
  | _, _ => none

theorem pop_spec {t t' : Talker M} {taken : Slip M} {accepted : Option Nat}
    (popped : t.pop taken accepted = some t') :
    ∃ removed queue, t.queue.next = some removed ∧ t.queue.pop = some queue ∧
      t' = { t with queue := queue, log := t.log ++ [.popped removed taken accepted] } := by
  unfold Talker.pop at popped
  split at popped
  · rename_i removed queue next pop
    exact ⟨removed, queue, next, pop, (Option.some.inj popped).symm⟩
  · cases popped

theorem popped_of_pop_none {t : Talker M} {taken : Slip M} {accepted : Option Nat}
    (stuck : t.pop taken accepted = none) : t.queue.head_popped = true := by
  by_contra pending
  simp [Talker.pop, TalkerQueue.next, TalkerQueue.pop, pending] at stuck

end Talker

/-! ### The connection

The runner installs `message_sender`, then `active`, lets the websocket run, and takes both back.
`active` holds exactly while the websocket is open. `message_sender` hands a message over only
then: before and after, the websocket throws, and once taken back it does nothing. -/

inductive Phase where
  | offline
  | prepared
  | connecting
  | opened
  | closing
  | retiring
  deriving DecidableEq, Repr

inductive Change where
  | install
  | activate
  | opened
  | closed
  | clear_sender
  | clear_active
  deriving DecidableEq, Repr

structure Link where
  phase : Phase
  session : Nat := 0

namespace Link

def active (l : Link) : Bool := l.phase = .opened

/-- The session that took the message; `accepts` is false when the websocket throws. -/
def message_sender (l : Link) (accepts : Bool) : Option Nat :=
  if l.phase = .opened ∧ accepts = true then some l.session else none

/-- The open handler runs on the thread that opens the websocket and that leaves `run`. -/
def change (l : Link) (handling : Bool) : Change → Link
  | .install => if l.phase = .offline then { l with phase := .prepared } else l
  | .activate => if l.phase = .prepared then { l with phase := .connecting } else l
  | .opened =>
    if l.phase = .connecting ∧ handling = false then { phase := .opened, session := l.session + 1 } else l
  | .closed => if l.phase = .connecting ∨ l.phase = .opened then { l with phase := .closing } else l
  | .clear_sender =>
    if (l.phase = .prepared ∨ l.phase = .closing) ∧ handling = false then { l with phase := .retiring } else l
  | .clear_active => if l.phase = .retiring then { l with phase := .offline } else l

theorem change_cases (l : Link) (handling : Bool) (c : Change) :
    ((l.change handling c).session = l.session ∧
      ((l.change handling c).phase = .opened → l.phase = .opened)) ∨
    (l.change handling c = { phase := .opened, session := l.session + 1 } ∧ handling = false) := by
  cases c <;> simp only [change] <;> split <;> simp_all

end Link

/-! ### The system -/

/-- Where `talk` is: `idle` between two passes, otherwise before the call of that name for the
queue with that index. -/
inductive Pc (M : Type) where
  | idle
  | active (i : Nat)
  | empty (i : Nat)
  | next (i : Nat)
  | send (i : Nat) (x : Slip M)
  | message_sender (i : Nat) (x : Slip M)
  | pop (i : Nat) (x : Slip M) (accepted : Option Nat)
  | undefined

structure State (M : Type) where
  talkers : List (Talker M)
  pc : Pc M := .idle
  link : Link
  resetTalkers : Option Nat := none

inductive Event (M : Type) where
  | attach (queue_size : Int32) (head_msg : M)
  | push (i : Nat) (msg : M)
  | destroy (i : Nat) (msg : M)
  | abandon (i : Nat)
  | talk (accepts : Bool)
  | resetTalkers
  | link (c : Change)

def talk (s : State M) (accepts : Bool) : State M :=
  match s.pc with
  | .idle => { s with pc := .active 0 }
  | .active i =>
    if i < s.talkers.length ∧ s.link.active then { s with pc := .empty i } else { s with pc := .idle }
  | .empty i =>
    match s.talkers[i]? with
    | none => { s with pc := .idle }
    | some t => if t.queue.empty then { s with pc := .active (i + 1) } else { s with pc := .next i }
  | .next i =>
    match s.talkers[i]?.bind (fun t => t.queue.next) with
    | none => { s with pc := .undefined }
    | some x => { s with pc := .send i x }
  | .send i x =>
    -- `send` returns early, and `talk` pops all the same.
    if s.link.active then { s with pc := .message_sender i x } else { s with pc := .pop i x none }
  | .message_sender i x =>
    let accepted := s.link.message_sender accepts
    { s with talkers := s.talkers.modify i (fun t => t.transmit x accepted), pc := .pop i x accepted }
  | .pop i x accepted =>
    match s.talkers[i]?.bind (fun t => t.pop x accepted) with
    | none => { s with pc := .undefined }
    | some t => { s with talkers := s.talkers.set i t, pc := .active (i + 1) }
  | .undefined => s

def resetTalkers (s : State M) : State M :=
  match s.resetTalkers with
  | none => s
  | some i =>
    if i < s.talkers.length then
      { s with talkers := s.talkers.modify i Talker.reset, resetTalkers := some (i + 1) }
    else { s with resetTalkers := none }

/-- `push_back` while a loop runs over the vector is undefined behaviour, and no step of a run. -/
def attach (s : State M) (t : Talker M) : State M :=
  match s.pc, s.resetTalkers with
  | .idle, none => { s with talkers := s.talkers ++ [t] }
  | _, _ => s

def step (s : State M) : Event M → State M
  | .attach queue_size head_msg => attach s (.new queue_size head_msg)
  | .push i msg => { s with talkers := s.talkers.modify i (fun t => t.push .pushed msg) }
  | .destroy i msg => { s with talkers := s.talkers.modify i (fun t => t.push .withdrawal msg) }
  | .abandon i => { s with talkers := s.talkers.modify i Talker.abandon }
  | .talk accepts => talk s accepts
  | .resetTalkers => resetTalkers s
  | .link c =>
    let link := s.link.change s.resetTalkers.isSome c
    { s with link := link, resetTalkers := if link.session = s.link.session then s.resetTalkers else some 0 }

@[simp] theorem attach_link (s : State M) (t : Talker M) : (attach s t).link = s.link := by
  unfold attach
  split <;> rfl

@[simp] theorem talk_link (s : State M) (accepts : Bool) : (talk s accepts).link = s.link := by
  unfold talk
  cases s.pc <;> dsimp only <;> (try split) <;> (try split) <;> rfl

abbrev run (s : State M) (events : List (Event M)) : State M := Machine.run step s events

def start (phase : Phase) : State M where
  talkers := []
  link := { phase := phase }

end Rosbridge.Talk
