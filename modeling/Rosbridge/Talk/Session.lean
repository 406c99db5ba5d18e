import Rosbridge.Talk.Handover

/-!
# Every session declares before it talks

The open handler resets every queue, so that its head message goes first in the new session. The
order in which `talk` and the handler reach a queue decides whether it does.
-/

namespace Rosbridge.Talk

variable {M : Type}

def Entry.sentIn? (session : Nat) : Entry M → Option (Slip M)
  | .sent k x => if k = session then some x else none
  | _ => none

def sentIn (session : Nat) (log : List (Entry M)) : List (Slip M) :=
  log.filterMap (Entry.sentIn? session)

/-- The first message is the head message, and no later one is. -/
def Redeclared (head : Slip M) (sent : List (Slip M)) : Prop :=
  sent = [] ∨ ∃ rest, sent = head :: rest ∧ ∀ x ∈ rest, x.isHead = false

@[simp] theorem sentIn_push (session : Nat) (t : Talker M) (origin : Nat → Origin) (msg : M) :
    sentIn session (t.push origin msg).log = sentIn session t.log := by
  simp [sentIn, Talker.push, Entry.sentIn?]

@[simp] theorem sentIn_popped (session : Nat) (log : List (Entry M)) (removed taken : Slip M)
    (accepted : Option Nat) :
    sentIn session (log ++ [.popped removed taken accepted]) = sentIn session log := by
  simp [sentIn, Entry.sentIn?]

theorem sentIn_sent_self (session : Nat) (log : List (Entry M)) (x : Slip M) :
    sentIn session (log ++ [.sent session x]) = sentIn session log ++ [x] := by
  simp [sentIn, Entry.sentIn?]

theorem sentIn_sent_of_ne {session other : Nat} (log : List (Entry M)) (x : Slip M)
    (different : session ≠ other) : sentIn other (log ++ [.sent session x]) = sentIn other log := by
  simp [sentIn, Entry.sentIn?, different]

theorem Redeclared.append {head x : Slip M} {sent : List (Slip M)} (h : Redeclared head sent)
    (started : sent ≠ []) (later : x.isHead = false) : Redeclared head (sent ++ [x]) := by
  obtain rfl | ⟨rest, rfl, quiet⟩ := h
  · exact absurd rfl started
  · refine .inr ⟨rest ++ [x], rfl, fun y member => ?_⟩
    rcases List.mem_append.mp member with old | new
    · exact quiet y old
    · rwa [List.mem_singleton.mp new]

/-- What `talk` holds does not stop the queue from declaring itself: nothing, or a head message
that is still to be sent. -/
def Hold.undeclared : Hold M → Bool
  | .away => true
  | .ready => true
  | .fetched x => x.isHead
  | .checked x => x.isHead
  | .handled _ _ => false

/-- A head message that a session has taken, on its way to `pop`. -/
def Hold.declared (session : Nat) : Hold M → Bool
  | .handled x accepted => x.isHead && accepted = some session
  | _ => false

/-- Before the handler has reset a queue, `talk` transmits no message of it in an open session but the
head message, and does not pop that. Afterwards a head message that it transmits is taken. -/
def TalksInOrder (s : State M) (accepts : Bool) : Pc M → Prop
  | .message_sender i x =>
    s.link.phase = .opened →
      (accepts = true → s.pending i = false ∨ x.isHead = true) ∧
      (accepts = false → s.pending i = true ∨ x.isHead = false)
  | .pop i _ accepted =>
    s.link.phase = .opened → accepted = some s.link.session → s.pending i = false
  | _ => True

/-- And when the handler resets a queue in an open session, `talk` does not hold a message of it that
`pop` would take for the head message. -/
def InOrder (s : State M) : Event M → Prop
  | .talk accepts => TalksInOrder s accepts s.pc
  | .resetTalkers =>
    s.link.phase = .opened → s.resetTalkers.all (fun i =>
      (s.pc.hold i).undeclared || (s.pc.hold i).declared s.link.session) = true
  | _ => True

instance (s : State M) (accepts : Bool) (pc : Pc M) : Decidable (TalksInOrder s accepts pc) := by
  unfold TalksInOrder
  cases pc <;> dsimp only <;> infer_instance

instance (s : State M) (e : Event M) : Decidable (InOrder s e) := by
  unfold InOrder
  cases e <;> dsimp only <;> infer_instance

/-! ### The invariant of a lane -/

/-- The queue has not declared itself in this session, and will when it is next served. -/
def Lane.Waiting (l : Lane M) : Prop :=
  sentIn l.link.session l.talker.log = [] ∧ l.talker.queue.head_popped = false ∧
    l.hold.undeclared = true

/-- The queue has declared itself, and what is next is no head message, or the one that `talk` has
sent and not yet popped. -/
def Lane.Settled (l : Lane M) : Prop :=
  sentIn l.link.session l.talker.log ≠ [] ∧
    ((l.talker.queue.head_popped = false ∧ ∃ x accepted, l.hold = .handled x accepted) ∨
      (l.talker.queue.head_popped = true ∧ ∀ x, l.hold.taken = some x → x.isHead = false))

/-- The session has taken the head message, which `talk` has not popped yet. -/
def Lane.Early (l : Lane M) : Prop :=
  sentIn l.link.session l.talker.log = [l.talker.queue.head_msg] ∧
    ∃ x, l.hold = .handled x (some l.link.session)

structure Declared (l : Lane M) : Prop where
  head : l.talker.queue.head_msg.isHead = true
  queued : ∀ x ∈ l.talker.queue.q, x.isHead = false
  held : ∀ x, l.hold.taken = some x → x.isHead = true → x = l.talker.queue.head_msg
  handled : ∀ x session, l.hold = .handled x (some session) → sentIn session l.talker.log ≠ []
  past : ∀ session, Redeclared l.talker.queue.head_msg (sentIn session l.talker.log)
  future : ∀ session, l.link.session < session → sentIn session l.talker.log = []
  before : l.pending = true → l.link.phase = .opened →
    sentIn l.link.session l.talker.log = [] ∨ l.Early
  after : l.pending = false → l.link.phase = .opened → l.Waiting ∨ l.Settled

def Declared.Allowed (l : Lane M) : LaneEvent M → Prop
  | .message_sender accepts => ∀ x, l.hold = .checked x → l.link.phase = .opened →
      (accepts = true → l.pending = false ∨ x.isHead = true) ∧
      (accepts = false → l.pending = true ∨ x.isHead = false)
  | .pop => ∀ x, l.hold = .handled x (some l.link.session) → l.link.phase = .opened →
      l.pending = false
  | .reset => l.link.phase = .opened →
      l.hold.undeclared = true ∨ l.hold.declared l.link.session = true
  | _ => True

theorem declared_fresh (queue_size : Int32) (head_msg : M) (link : Link) :
    Declared (.fresh queue_size head_msg link) where
  head := rfl
  queued := by simp [Lane.fresh, Talker.new, TalkerQueue.new]
  held := by simp [Lane.fresh]
  handled := by simp [Lane.fresh]
  past session := .inl rfl
  future session _ := rfl
  before _ _ := .inl rfl
  after _ _ := .inl ⟨rfl, rfl, rfl⟩

theorem declared_push {l : Lane M} (h : Declared l) {origin : Nat → Origin} (msg : M)
    (own : ∀ n, origin n ≠ .head) : Declared { l with talker := l.talker.push origin msg } where
  head := h.head
  queued x member := by
    rcases TalkerQueue.mem_push_q member with old | rfl
    · exact h.queued x old
    · simpa [Slip.isHead] using own l.talker.tickets
  held := h.held
  handled x session hold := by
    rw [sentIn_push]
    exact h.handled x session hold
  past session := by
    rw [sentIn_push]
    exact h.past session
  future session later := by
    rw [sentIn_push]
    exact h.future session later
  before pending isOpen := by
    simp only [Lane.Early, sentIn_push]
    exact h.before pending isOpen
  after settled isOpen := by
    simp only [Lane.Waiting, Lane.Settled, sentIn_push]
    exact h.after settled isOpen

/-- A step of `talk` that only moves on. -/
theorem declared_moves {l : Lane M} (h : Declared l) {hold : Hold M}
    (held : ∀ x, hold.taken = some x → x.isHead = true → x = l.talker.queue.head_msg)
    (unsent : ∀ x session, hold ≠ .handled x (some session))
    (before : l.pending = true → l.link.phase = .opened → sentIn l.link.session l.talker.log = [])
    (after : l.pending = false → l.link.phase = .opened →
      Lane.Waiting { l with hold := hold } ∨ Lane.Settled { l with hold := hold }) :
    Declared { l with hold := hold } where
  head := h.head
  queued := h.queued
  held := held
  handled x session handled := absurd handled (unsent x session)
  past := h.past
  future := h.future
  before pending isOpen := .inl (before pending isOpen)
  after := after

/-- The session has taken nothing of a queue that is still to be reset, unless `talk` is just about
to pop it. -/
theorem Declared.silent {l : Lane M} (h : Declared l)
    (unsent : ∀ x, l.hold ≠ .handled x (some l.link.session)) (pending : l.pending = true)
    (isOpen : l.link.phase = .opened) : sentIn l.link.session l.talker.log = [] := by
  rcases h.before pending isOpen with silent | ⟨-, x, handled⟩
  · exact silent
  · exact absurd handled (unsent x)

theorem declared_next {l : Lane M} (h : Declared l) (ready : l.hold = .ready) : Declared (l.step .next) := by
  have before := h.silent (by simp [ready])
  rcases l.next_cases with ⟨popped, away⟩ | ⟨x, next, fetched⟩
  · rw [away]
    refine declared_moves h (by simp) (by simp) before fun settled isOpen => ?_
    rcases h.after settled isOpen with ⟨-, first, -⟩ | ⟨spoken, -⟩
    · simp [popped] at first
    · exact .inr ⟨spoken, .inr ⟨popped, by simp⟩⟩
  · rw [fetched]
    refine declared_moves h (fun y taken isHead => ?_) (by simp) before fun settled isOpen => ?_
    · obtain rfl : x = y := by simpa using taken
      rcases TalkerQueue.next_cases next with ⟨-, rfl⟩ | ⟨-, front⟩
      · rfl
      · simp [h.queued x (List.mem_of_head? front)] at isHead
    · rcases h.after settled isOpen with ⟨silent, first, -⟩ | ⟨spoken, ⟨-, y, accepted, hold⟩ | ⟨popped, -⟩⟩
      · rcases TalkerQueue.next_cases next with ⟨-, rfl⟩ | ⟨popped, -⟩
        · exact .inl ⟨silent, first, h.head⟩
        · simp [first] at popped
      · simp [ready] at hold
      · rcases TalkerQueue.next_cases next with ⟨first, -⟩ | ⟨-, front⟩
        · simp [popped] at first
        · refine .inr ⟨spoken, .inr ⟨popped, fun y taken => ?_⟩⟩
          obtain rfl : x = y := by simpa using taken
          exact h.queued x (List.mem_of_head? front)

theorem declared_transmit {l : Lane M} {x : Slip M} (h : Declared l) (hold : l.hold = .checked x)
    (isOpen : l.link.phase = .opened) (first : l.pending = false ∨ x.isHead = true) :
    Declared { l with
      talker := { l.talker with log := l.talker.log ++ [.sent l.link.session x] },
      hold := .handled x (some l.link.session) } := by
  have held : x.isHead = true → x = l.talker.queue.head_msg := h.held x (by rw [hold]; rfl)
  have grown := sentIn_sent_self l.link.session l.talker.log x
  have spoken : sentIn l.link.session (l.talker.log ++ [.sent l.link.session x]) ≠ [] := by
    rw [grown]
    simp
  have early (pending : l.pending = true) : sentIn l.link.session l.talker.log = [] ∧ x.isHead = true :=
    ⟨h.silent (by simp [hold]) pending isOpen, first.resolve_left (by simp [pending])⟩
  have later (reset : l.pending = false) :
      Redeclared l.talker.queue.head_msg (sentIn l.link.session l.talker.log ++ [x]) ∧
        (l.talker.queue.head_popped = true → x.isHead = false) := by
    rcases h.after reset isOpen with
      ⟨silent, unpopped, waiting⟩ | ⟨started, ⟨-, y, accepted, handled⟩ | ⟨-, quiet⟩⟩
    · have isHead : x.isHead = true := by simpa [hold, Hold.undeclared] using waiting
      rw [silent, held isHead]
      exact ⟨.inr ⟨[], rfl, by simp⟩, by simp [unpopped]⟩
    · simp [hold] at handled
    · have quiet : x.isHead = false := quiet x (by rw [hold]; rfl)
      exact ⟨(h.past l.link.session).append started quiet, fun _ => quiet⟩
  refine ⟨h.head, h.queued, ?_, ?_, fun session => ?_, fun session after => ?_, fun pending _ => .inr ?_,
    fun reset _ => .inr ⟨spoken, ?_⟩⟩
  · rintro y ⟨⟩
    exact held
  · rintro y _ ⟨⟩
    exact spoken
  · by_cases same : l.link.session = session
    · subst same
      rw [grown]
      cases pending : l.pending with
      | false => exact (later pending).1
      | true =>
        obtain ⟨silent, isHead⟩ := early pending
        rw [silent, held isHead]
        exact .inr ⟨[], rfl, by simp⟩
    · rw [sentIn_sent_of_ne _ _ same]
      exact h.past session
  · have different : l.link.session ≠ session := Nat.ne_of_lt after
    rw [sentIn_sent_of_ne _ _ different]
    exact h.future session after
  · obtain ⟨silent, isHead⟩ := early pending
    refine ⟨?_, x, rfl⟩
    rw [grown, silent, held isHead]
    rfl
  · cases popped : l.talker.queue.head_popped with
    | false => exact .inl ⟨rfl, x, _, rfl⟩
    | true =>
      refine .inr ⟨rfl, ?_⟩
      rintro y ⟨⟩
      exact (later reset).2 popped

theorem declared_pop {l : Lane M} {taken removed : Slip M} {accepted : Option Nat}
    {queue : TalkerQueue (Slip M)} (h : Declared l) (hold : l.hold = .handled taken accepted)
    (popped : l.talker.queue.pop = some queue)
    (silent : l.pending = true → l.link.phase = .opened → sentIn l.link.session l.talker.log = []) :
    Declared { l with
      talker := { l.talker with
        queue := queue, log := l.talker.log ++ [.popped removed taken accepted] },
      hold := .away } := by
  obtain ⟨head_msg, subset, isPopped⟩ := TalkerQueue.pop_keeps popped
  refine ⟨by rw [head_msg]; exact h.head, fun x member => h.queued x (subset x member), by simp,
    by simp, fun session => ?_, fun session later => ?_, fun pending isOpen => .inl ?_,
    fun reset isOpen => .inr ?_⟩
  · rw [sentIn_popped, head_msg]
    exact h.past session
  · rw [sentIn_popped]
    exact h.future session later
  · rw [sentIn_popped]
    exact silent pending isOpen
  · have spoken : sentIn l.link.session l.talker.log ≠ [] := by
      rcases h.after reset isOpen with ⟨-, -, waiting⟩ | ⟨spoken, -⟩
      · simp [hold, Hold.undeclared] at waiting
      · exact spoken
    refine ⟨?_, .inr ⟨isPopped, by simp⟩⟩
    rw [sentIn_popped]
    exact spoken

theorem declared_cases {hold : Hold M} {session : Nat} (declared : hold.declared session = true) :
    ∃ x, hold = .handled x (some session) := by
  cases hold with
  | handled x accepted =>
    simp only [Hold.declared, Bool.and_eq_true, decide_eq_true_eq] at declared
    exact ⟨x, by rw [declared.2]⟩
  | _ => cases declared

theorem declared_reset {l : Lane M} (h : Declared l) (pending : l.pending = true)
    (ok : l.link.phase = .opened → l.hold.undeclared = true ∨ l.hold.declared l.link.session = true) :
    Declared (l.step .reset) := by
  refine ⟨h.head, h.queued, h.held, h.handled, h.past, h.future, fun reset => by simp [Lane.step] at reset,
    fun _ isOpen => ?_⟩
  -- The session has taken nothing yet, or the head message that `pop` is about to take off again.
  rcases ok isOpen with undeclared | declared
  · have silent : sentIn l.link.session l.talker.log = [] :=
      h.silent (fun x handled => by simp [handled, Hold.undeclared] at undeclared) pending isOpen
    exact .inl ⟨silent, rfl, undeclared⟩
  · obtain ⟨x, handled⟩ := declared_cases declared
    exact .inr ⟨h.handled x _ handled, .inl ⟨rfl, x, _, handled⟩⟩

theorem declared_step {l : Lane M} {e : LaneEvent M} (h : Declared l) (guard : l.Guard e)
    (ok : Declared.Allowed l e) : Declared (l.step e) := by
  cases e with
  | other => exact h
  | push origin msg => exact declared_push h msg guard
  | abandon => exact ⟨h.head, h.queued, h.held, h.handled, h.past, h.future, h.before, h.after⟩
  | empty =>
    have away : l.hold = .away := guard
    refine declared_moves h (by simp) (by simp) (h.silent (by simp [away])) fun settled isOpen => ?_
    rcases h.after settled isOpen with ⟨silent, first, -⟩ | ⟨spoken, ⟨-, x, accepted, hold⟩ | ⟨popped, -⟩⟩
    · exact .inl ⟨silent, first, rfl⟩
    · simp [away] at hold
    · exact .inr ⟨spoken, .inr ⟨popped, by simp⟩⟩
  | next => exact declared_next h guard
  | send =>
    rcases l.send_cases with same | ⟨x, hold, ⟨-, checked⟩ | ⟨shut, handled⟩⟩
    · rwa [same]
    · rw [checked]
      refine declared_moves h (by simpa [hold] using h.held) (by simp) (h.silent (by simp [hold]))
        fun settled isOpen => ?_
      simpa [Lane.Waiting, Lane.Settled, hold, Hold.undeclared] using h.after settled isOpen
    · rw [handled]
      refine declared_moves h (by simpa [hold] using h.held) (by simp) (h.silent (by simp [hold]))
        fun _ isOpen => ?_
      exact absurd isOpen shut
  | message_sender accepts =>
    rcases l.message_sender_cases accepts with same | ⟨x, hold, ⟨-, isOpen, taken, sent⟩ | ⟨refused, handled⟩⟩
    · rwa [same]
    · rw [sent]
      exact declared_transmit h hold isOpen ((ok x hold isOpen).1 taken)
    · rw [handled]
      refine declared_moves h (by simpa [hold] using h.held) (by simp) (h.silent (by simp [hold]))
        fun settled isOpen => ?_
      have thrown : accepts = false := by simpa [isOpen] using refused
      have later : x.isHead = false := by
        simpa [settled] using (ok x hold isOpen).2 thrown
      rcases h.after settled isOpen with ⟨-, -, waiting⟩ | ⟨spoken, ⟨-, y, accepted, held⟩ | ⟨popped, -⟩⟩
      · simp [hold, Hold.undeclared, later] at waiting
      · simp [hold] at held
      · exact .inr ⟨spoken, .inr ⟨popped, by simpa using later⟩⟩
  | pop =>
    have silent (pending : l.pending = true) (isOpen : l.link.phase = .opened) :
        sentIn l.link.session l.talker.log = [] := by
      refine h.silent (fun x handled => ?_) pending isOpen
      simp [ok x handled isOpen] at pending
    rcases l.pop_cases with same | ⟨taken, accepted, hold, ⟨popped, away⟩ | ⟨removed, queue, -, pop, popped⟩⟩
    · rwa [same]
    · rw [away]
      refine declared_moves h (by simp) (by simp) silent fun settled isOpen => ?_
      rcases h.after settled isOpen with ⟨-, first, -⟩ | ⟨spoken, -⟩
      · simp [popped] at first
      · exact .inr ⟨spoken, .inr ⟨popped, by simp⟩⟩
    · rw [popped]
      exact declared_pop h hold pop silent
  | reset => exact declared_reset h guard ok
  | link link =>
    obtain ⟨same, kept⟩ := guard
    refine ⟨h.head, h.queued, h.held, h.handled, h.past, fun session later => h.future session ?_,
      fun pending isOpen => ?_, fun reset isOpen => ?_⟩
    · rw [← same]
      exact later
    · have old := h.before pending (kept isOpen)
      simpa [Lane.Early, Lane.step, same] using old
    · have old := h.after reset (kept isOpen)
      simpa [Lane.Waiting, Lane.Settled, Lane.step, same] using old
  | opened =>
    refine ⟨h.head, h.queued, h.held, h.handled, h.past, fun session later => h.future session ?_,
      fun _ _ => .inl (h.future _ (Nat.lt_succ_self _)), fun reset => by simp [Lane.step] at reset⟩
    have next : l.link.session + 1 < session := later
    omega

/-! ### Every run -/

theorem declared_allowed {i : Nat} {s : State M} {l : Lane M} {e : Event M} (here : lane i s = some l)
    (order : InOrder s e) : Declared.Allowed l (label i s e) := by
  obtain ⟨-, hold, link, pending⟩ := lane_eq_some here
  have sees := label_sees here e
  generalize label i s e = seen at sees
  cases sees with
  | message_sender accepts x pc checked =>
    simp only [InOrder, TalksInOrder, pc] at order
    intro y held isOpen
    rw [checked] at held
    obtain rfl : x = y := by simpa using held
    rw [← link] at isOpen
    rw [← pending]
    exact order isOpen
  | pop accepts x accepted pc handled =>
    simp only [InOrder, TalksInOrder, pc] at order
    intro y held isOpen
    rw [handled] at held
    obtain ⟨rfl, rfl⟩ : x = y ∧ accepted = some l.link.session := by simpa using held
    rw [← link] at isOpen order
    rw [← pending]
    exact order isOpen rfl
  | reset current pending =>
    intro isOpen
    rw [← link] at isOpen ⊢
    simpa [current, hold] using order isOpen
  | _ => trivial

/-- In each session a queue first sends its head message, and sends it once. -/
theorem every_session_redeclares {events : List (Event M)}
    (order : Machine.Along step InOrder (start .offline) events) :
    ∀ t ∈ (run (start .offline) events).talkers, ∀ session,
      Redeclared t.queue.head_msg (sentIn session t.log) := by
  intro t member session
  obtain ⟨i, l, here, rfl⟩ := lane_of_mem member
  have declared : Declared l := by
    refine lane_invariant declared_fresh ?_ order i l here
    exact fun _ _ _ _ here before guard ok => declared_step before guard (declared_allowed here ok)
  exact declared.past session

/-- A first session with a queued message, and its end. -/
def firstSession : List (Event Serializer) :=
  .attach 10 advertise :: connects 1 ++ talks 8 ++
    [.link .closed, .link .clear_sender, .link .clear_active, .push 0 (chatter "one" "2")]

theorem every_session_redeclares_twice :
    Machine.Along step InOrder (start .offline) (firstSession ++ connects 1 ++ talks 16) ∧
      ∀ t ∈ (run (start .offline) (firstSession ++ connects 1 ++ talks 16)).talkers, ∀ session,
        Redeclared t.queue.head_msg (sentIn session t.log) := by
  have order : Machine.Along step InOrder (start .offline)
      (firstSession ++ connects 1 ++ talks 16) := by decide +kernel
  exact ⟨order, every_session_redeclares order⟩

/-- `talk` finds the websocket open before the handler has reset the queue. -/
def overtakes : List (Event Serializer) :=
  firstSession ++ [.link .install, .link .activate, .link .opened] ++ talks 6

/-- The handler resets the queue between `next` and `pop`, here of a message that goes first. -/
def interrupts : List (Event Serializer) :=
  firstSession ++ [.link .install, .link .activate, .link .opened] ++ talks 4 ++
    [.resetTalkers, .resetTalkers] ++ talks 4

/-- The second session begins with the queued message. -/
theorem not_redeclared_of_queued {events : List (Event Serializer)}
    (final : (run (start .offline) events).talkers.map (fun t => (t.queue.head_msg, sentIn 2 t.log)) =
      [(⟨.head, advertise⟩, [⟨.pushed 0, chatter "one" "2"⟩])]) :
    ∃ t ∈ (run (start .offline) events).talkers, ¬ Redeclared t.queue.head_msg (sentIn 2 t.log) := by
  obtain ⟨t, rest, talkers, same, -⟩ := List.map_eq_cons_iff.mp final
  obtain ⟨head, sent⟩ := Prod.mk.inj same
  refine ⟨t, by rw [talkers]; exact List.mem_cons_self, ?_⟩
  rw [head, sent]
  rintro (silent | ⟨rest, first, -⟩)
  · cases silent
  · simp at first

theorem session_without_declaration :
    (∃ t ∈ (run (start .offline) overtakes).talkers,
        ¬ Redeclared t.queue.head_msg (sentIn 2 t.log)) ∧
      ∃ t ∈ (run (start .offline) interrupts).talkers,
        ¬ Redeclared t.queue.head_msg (sentIn 2 t.log) :=
  ⟨not_redeclared_of_queued rfl, not_redeclared_of_queued rfl⟩

end Rosbridge.Talk
