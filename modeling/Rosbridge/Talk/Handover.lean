import Rosbridge.Serializer
import Rosbridge.Talk.Lane

/-!
# What leaves a talker queue was handed over

`talk` reads, sends and removes in three critical sections. As long as nothing takes the message
it has read out of the front in between, and every send succeeds, `pop` removes the message that
was sent.
-/

namespace Rosbridge.Talk

variable {M : Type}

/-- Every `pop` removed the message that `talk` had read, after an open session had taken it. -/
def HandedOver (t : Talker M) : Prop :=
  ∀ removed taken accepted, .popped removed taken accepted ∈ t.log →
    removed = taken ∧ ∃ session, accepted = some session ∧ .sent session taken ∈ t.log

/-- Every pushed message is still queued, was transmitted, or fell to the overflow loop of `push`. -/
def Accounted (t : Talker M) : Prop :=
  ∀ x, .pushed x ∈ t.log →
    x ∈ t.queue.q ∨ (∃ session, .sent session x ∈ t.log) ∨ .evicted x ∈ t.log

/-- `talk` is between `next` and `pop` of a message queued in queue `i`. What happens to the queue while
`talk` holds its head message is harmless. -/
def HoldsQueued (s : State M) (i : Nat) : Bool :=
  s.talkers[i]?.any fun t => (s.pc.hold i).taken.isSome && t.queue.head_popped

def Full (s : State M) (i : Nat) : Bool :=
  s.talkers[i]?.any fun t => t.queue.capacity ≤ t.queue.q.length

/-- Between `next` and `pop` of a queued message, no push overflows its queue and no reset reaches
it. -/
def KeepsFront (s : State M) : Event M → Prop
  | .push i _ => (HoldsQueued s i && Full s i) = false
  | .destroy i _ => (HoldsQueued s i && Full s i) = false
  | .resetTalkers => s.resetTalkers.any (HoldsQueued s) = false
  | _ => True

instance (s : State M) : (e : Event M) → Decidable (KeepsFront s e)
  | .push i _ => inferInstanceAs (Decidable ((HoldsQueued s i && Full s i) = false))
  | .destroy i _ => inferInstanceAs (Decidable ((HoldsQueued s i && Full s i) = false))
  | .resetTalkers => inferInstanceAs (Decidable (s.resetTalkers.any _ = false))
  | .attach _ _ | .abandon _ | .talk _ | .link _ => .isTrue trivial

/-- `Connection::send` finds the websocket open, twice, and it does not throw. -/
def SendSucceeds (s : State M) : Event M → Prop
  | .talk accepts =>
    match s.pc with
    | .send _ _ => s.link.phase = .opened
    | .message_sender _ _ => s.link.phase = .opened ∧ accepts = true
    | _ => True
  | _ => True

instance (s : State M) : (e : Event M) → Decidable (SendSucceeds s e)
  | .talk accepts => by
    unfold SendSucceeds
    cases s.pc <;> dsimp only <;> infer_instance
  | .attach _ _ | .push _ _ | .destroy _ _ | .abandon _ | .resetTalkers | .link _ => .isTrue trivial

/-- What a step evicts was the oldest message of a full queue. -/
def EvictsOldest (s : State M) (e : Event M) : Prop :=
  ∀ (i : Nat) (t t' : Talker M), s.talkers[i]? = some t → (step s e).talkers[i]? = some t' → 0 < t.queue.capacity →
    ∀ x, .evicted x ∈ t'.log.drop t.log.length →
      t.queue.q.length = t.queue.capacity ∧ t.queue.q.head? = some x

/-! ### What is evicted -/

theorem withinSize_step {l : Lane M} (bounded : l.talker.queue.WithinSize) (e : LaneEvent M) :
    (l.step e).talker.queue.WithinSize := by
  rcases e.push_or_quiet with ⟨origin, msg, rfl⟩ | quiet
  · exact TalkerQueue.withinSize_push _ _
  · obtain ⟨queue, new, size, shorter, -, same⟩ := Lane.talker_cases quiet
    rw [same]
    show queue.q.length ≤ sizeT queue.q_size
    rw [size]
    exact shorter.length_le.trans bounded

/-- Only a push adds to what has been evicted. -/
theorem evicts_oldest {l : Lane M} (bounded : l.talker.queue.WithinSize) (sized : 0 < l.talker.queue.capacity)
    (e : LaneEvent M) {x : Slip M} (evicted : .evicted x ∈ (l.step e).talker.log.drop l.talker.log.length) :
    l.talker.queue.q.length = l.talker.queue.capacity ∧ l.talker.queue.q.head? = some x := by
  rcases e.push_or_quiet with ⟨origin, msg, rfl⟩ | quiet
  · simp only [Lane.step, Talker.push, List.drop_left, List.mem_cons, reduceCtorEq, false_or, List.mem_map,
      Entry.evicted.injEq, exists_eq_right] at evicted
    exact TalkerQueue.mem_overflow sized bounded evicted
  · obtain ⟨queue, new, -, -, silent, same⟩ := Lane.talker_cases quiet
    rw [same, List.drop_left] at evicted
    exact absurd evicted (silent x).2

theorem evicts_run (phase : Phase) (events : List (Event M)) :
    Machine.Along step EvictsOldest (start phase) events := by
  have keep : ∀ (s : State M) (e : Event M), (∀ i l, lane i s = some l → l.talker.queue.WithinSize) →
      ∀ i l, lane i (step s e) = some l → l.talker.queue.WithinSize := by
    intro s e bounded i l' after
    rcases lane_step after with ⟨l, here, rfl⟩ | ⟨queue_size, head_msg, -, rfl⟩
    · exact withinSize_step (bounded i l here) _
    · exact Nat.zero_le _
  refine (Machine.along_invariant keep (by simp [lane, start]) events).imp fun s e bounded => ?_
  intro i t t' found after sized x new
  have here := lane_some found
  obtain ⟨moved, -, -, -⟩ := lane_eq_some (lane_kept here e)
  obtain rfl := Option.some.inj (moved.symm.trans after)
  exact evicts_oldest (bounded i _ here) sized _ new

/-! ### The invariant of a lane -/

structure InStep (l : Lane M) : Prop where
  front : ∀ x, l.hold.taken = some x → l.talker.queue.next = some x
  handled : ∀ x accepted, l.hold = .handled x accepted →
    ∃ session, accepted = some session ∧ .sent session x ∈ l.talker.log
  handed : HandedOver l.talker
  accounted : Accounted l.talker

def InStep.Allowed (l : Lane M) : LaneEvent M → Prop
  | .push _ _ => l.hold.taken ≠ none → l.talker.queue.head_popped = true →
      l.talker.queue.q.length < l.talker.queue.capacity
  | .reset => l.hold.taken ≠ none → l.talker.queue.head_popped = false
  | .send => l.link.phase = .opened
  | .message_sender accepts => l.link.phase = .opened ∧ accepts = true
  | _ => True

theorem next_push_of_room {t : TalkerQueue M} {x : M} (msg : M) (next : t.next = some x)
    (room : t.head_popped = true → t.q.length < t.capacity) : (t.push msg).next = some x := by
  rcases TalkerQueue.next_cases next with ⟨pending, rfl⟩ | ⟨popped, front⟩
  · simp [TalkerQueue.next, pending]
  · obtain ⟨rest, contents⟩ := List.head?_eq_some_iff.mp front
    have kept := t.push_q_of_room msg (room popped)
    simp [TalkerQueue.next, popped, kept, contents]

theorem accounted_push {t : Talker M} (h : Accounted t) (origin : Nat → Origin) (msg : M) :
    Accounted (t.push origin msg) := by
  intro x pushed
  have queued : x ∈ t.queue.q ++ [⟨origin t.tickets, msg⟩] ∨
      (∃ session, .sent session x ∈ t.log) ∨ .evicted x ∈ t.log := by
    simp only [Talker.push, List.mem_append, List.mem_cons, List.mem_map, reduceCtorEq, and_false,
      exists_false, or_false, Entry.pushed.injEq] at pushed
    rcases pushed with old | rfl
    · exact (h x old).imp_left (List.mem_append_left _)
    · exact .inl (List.mem_append_right _ List.mem_cons_self)
  rcases queued with queued | ⟨session, sent⟩ | evicted
  · rcases t.queue.push_keeps_or_drops queued with kept | dropped
    · exact .inl kept
    · exact .inr (.inr (List.mem_append_right _ (List.mem_cons_of_mem _ (List.mem_map_of_mem dropped))))
  · exact .inr (.inl ⟨session, List.mem_append_left _ sent⟩)
  · exact .inr (.inr (List.mem_append_left _ evicted))

theorem mem_pop {t t' : TalkerQueue M} {x removed : M} (popped : t.pop = some t')
    (next : t.next = some removed) (member : x ∈ t.q) : x ∈ t'.q ∨ x = removed := by
  rcases TalkerQueue.pop_cases popped with ⟨-, rfl⟩ | ⟨isPopped, y, rest, contents, rfl⟩
  · exact .inl member
  · simp only [TalkerQueue.next, isPopped, contents, ↓reduceIte, List.head?_cons, Option.some.injEq] at next
    subst next
    rw [contents] at member
    exact (List.mem_cons.mp member).symm

theorem HandedOver.append {t : Talker M} (h : HandedOver t) {log : List (Entry M)}
    (new : ∀ removed taken accepted, .popped removed taken accepted ∈ log →
      removed = taken ∧ ∃ session, accepted = some session ∧ .sent session taken ∈ t.log) :
    HandedOver { t with log := t.log ++ log } := by
  intro removed taken accepted member
  have known : removed = taken ∧ ∃ session, accepted = some session ∧ .sent session taken ∈ t.log := by
    rcases List.mem_append.mp member with old | old
    · exact h removed taken accepted old
    · exact new removed taken accepted old
  obtain ⟨same, session, by_, sent⟩ := known
  exact ⟨same, session, by_, List.mem_append_left _ sent⟩

theorem inStep_fresh (queue_size : Int32) (head_msg : M) (link : Link) :
    InStep (.fresh queue_size head_msg link) where
  front := by simp [Lane.fresh]
  handled := by simp [Lane.fresh]
  handed := by intro _ _ _ popped; simp [Lane.fresh, Talker.new] at popped
  accounted := by intro _ pushed; simp [Lane.fresh, Talker.new] at pushed

theorem inStep_pop {l : Lane M} {taken removed : Slip M} {accepted : Option Nat}
    {queue : TalkerQueue (Slip M)} (h : InStep l) (hold : l.hold = .handled taken accepted)
    (next : l.talker.queue.next = some removed) (pop : l.talker.queue.pop = some queue) :
    InStep { l with
      talker := { l.talker with
        queue := queue, log := l.talker.log ++ [.popped removed taken accepted] },
      hold := .away } := by
  obtain ⟨front, handled, handed, accounted⟩ := h
  obtain ⟨session, by_, sent⟩ := handled taken accepted hold
  have same : removed = taken := by
    have here := front taken (by rw [hold]; rfl)
    exact Option.some.inj (next.symm.trans here)
  refine ⟨by simp, by simp, ?_, fun x pushed => ?_⟩
  · refine handed.append fun removed' taken' accepted' member => ?_
    simp only [List.mem_singleton, Entry.popped.injEq] at member
    obtain ⟨rfl, rfl, rfl⟩ := member
    exact ⟨same, session, by_, sent⟩
  · rcases accounted x (by simpa using pushed) with queued | ⟨k, gone⟩ | evicted
    · rcases mem_pop pop next queued with kept | rfl
      · exact .inl kept
      · exact .inr (.inl ⟨session, List.mem_append_left _ (same ▸ sent)⟩)
    · exact .inr (.inl ⟨k, List.mem_append_left _ gone⟩)
    · exact .inr (.inr (List.mem_append_left _ evicted))

theorem inStep_step {l : Lane M} {e : LaneEvent M} (h : InStep l) (ok : InStep.Allowed l e) :
    InStep (l.step e) := by
  obtain ⟨front, handled, handed, accounted⟩ := h
  cases e with
  | other => exact ⟨front, handled, handed, accounted⟩
  | push origin msg =>
    refine ⟨fun x taken => ?_, fun x accepted hold => ?_, ?_, accounted_push accounted origin msg⟩
    · refine next_push_of_room _ (front x taken) (ok ?_)
      rw [show l.hold.taken = some x from taken]
      simp
    · obtain ⟨session, same, sent⟩ := handled x accepted hold
      exact ⟨session, same, List.mem_append_left _ sent⟩
    · exact handed.append (by simp)
  | abandon => exact ⟨front, handled, handed, accounted⟩
  | empty => exact ⟨by simp [Lane.step], by simp [Lane.step], handed, accounted⟩
  | next =>
    rcases l.next_cases with ⟨-, away⟩ | ⟨x, next, fetched⟩
    · rw [away]
      exact ⟨by simp, by simp, handed, accounted⟩
    · rw [fetched]
      exact ⟨by simp [next], by simp, handed, accounted⟩
  | send =>
    have isOpen : l.link.phase = .opened := ok
    rcases l.send_cases with same | ⟨x, hold, ⟨-, checked⟩ | ⟨shut, -⟩⟩
    · rw [same]
      exact ⟨front, handled, handed, accounted⟩
    · rw [checked]
      exact ⟨by simpa [hold] using front, by simp, handed, accounted⟩
    · exact absurd isOpen shut
  | message_sender accepts =>
    have open_ : l.link.phase = .opened ∧ accepts = true := ok
    rcases l.message_sender_cases accepts with same | ⟨x, hold, ⟨-, -, -, sent⟩ | ⟨refused, -⟩⟩
    · rw [same]
      exact ⟨front, handled, handed, accounted⟩
    · rw [sent]
      refine ⟨by simpa [hold] using front, ?_, handed.append (by simp), fun y pushed => ?_⟩
      · rintro y _ ⟨⟩
        exact ⟨_, rfl, by simp⟩
      · rcases accounted y (by simpa using pushed) with queued | ⟨session, old⟩ | evicted
        · exact .inl queued
        · exact .inr (.inl ⟨session, List.mem_append_left _ old⟩)
        · exact .inr (.inr (List.mem_append_left _ evicted))
    · exact absurd open_ refused
  | pop =>
    rcases l.pop_cases with same | ⟨taken, accepted, hold, ⟨-, away⟩ | ⟨removed, queue, next, pop, popped⟩⟩
    · rw [same]
      exact ⟨front, handled, handed, accounted⟩
    · rw [away]
      exact ⟨by simp, by simp, handed, accounted⟩
    · rw [popped]
      exact inStep_pop ⟨front, handled, handed, accounted⟩ hold next pop
  | reset =>
    -- What `talk` holds is the head message, and the reset leaves that in front.
    refine ⟨fun x taken => ?_, handled, handed, accounted⟩
    have held : l.hold.taken = some x := taken
    have pending : l.talker.queue.head_popped = false := ok (by simp [held])
    rcases TalkerQueue.next_cases (front x held) with ⟨-, rfl⟩ | ⟨popped, -⟩
    · rfl
    · simp [pending] at popped
  | link link => exact ⟨front, handled, handed, accounted⟩
  | opened => exact ⟨front, handled, handed, accounted⟩

/-! ### Every run -/

theorem inStep_allowed {i : Nat} {s : State M} {l : Lane M} {e : Event M} (here : lane i s = some l)
    (front : KeepsFront s e) (sends : SendSucceeds s e) : InStep.Allowed l (label i s e) := by
  obtain ⟨found, hold, link, -⟩ := lane_eq_some here
  have room (origin : Nat → Origin) (msg : M) (roomy : (HoldsQueued s i && Full s i) = false) :
      InStep.Allowed l (.push origin msg) := by
    intro taken popped
    have held := Option.isSome_iff_ne_none.mpr taken
    simpa [HoldsQueued, Full, found, hold, popped, held] using roomy
  have sees := label_sees here e
  generalize label i s e = seen at sees
  cases sees with
  | push msg => exact room _ msg front
  | destroy msg => exact room _ msg front
  | send accepts x pc =>
    simp only [SendSucceeds, pc] at sends
    show l.link.phase = .opened
    rwa [← link]
  | message_sender accepts x pc checked =>
    simp only [SendSucceeds, pc] at sends
    show l.link.phase = .opened ∧ accepts = true
    rwa [← link]
  | reset current pending =>
    intro taken
    have held := Option.isSome_iff_ne_none.mpr taken
    simpa [KeepsFront, HoldsQueued, current, found, hold, held] using front
  | _ => trivial

theorem inStep_run {phase : Phase} {events : List (Event M)}
    (front : Machine.Along step KeepsFront (start phase) events)
    (sends : Machine.Along step SendSucceeds (start phase) events) :
    ∀ i l, lane i (run (start phase) events) = some l → InStep l :=
  lane_invariant inStep_fresh
    (fun _ _ _ _ here before _ ok => inStep_step before (inStep_allowed here ok.1 ok.2))
    (front.and sends)

/-! ### Concrete runs -/

def advertise : Serializer := .topicAdvertise (ascii "/chatter") (ascii "std_msgs/String") (ascii "1")

def chatter (data id : String) : Serializer :=
  .topicMessage (ascii "/chatter") (to_json [(ascii "data", ascii data)]) (ascii id)

def talks (n : Nat) : List (Event Serializer) := List.replicate n (.talk true)

/-- A connection comes up and its open handler resets `n` queues. -/
def connects (n : Nat) : List (Event Serializer) :=
  [.link .install, .link .activate, .link .opened] ++ List.replicate (n + 1) .resetTalkers

def unhurried : List (Event Serializer) :=
  .attach 1 advertise :: talks 8 ++ .push 0 (chatter "one" "2") :: talks 8 ++
    .push 0 (chatter "two" "3") :: talks 8

/-! ### Every message is sent -/

/-- A message leaves a talker queue only when an open session has taken it. -/
theorem pops_only_what_was_sent {events : List (Event M)}
    (sends : Machine.Along step SendSucceeds (start .offline) events)
    (front : Machine.Along step KeepsFront (start .offline) events) :
    ∀ t ∈ (run (start .offline) events).talkers, HandedOver t := by
  intro t member
  obtain ⟨i, l, here, rfl⟩ := lane_of_mem member
  exact (inStep_run front sends i l here).handed

/-- The websocket closes after `talk` has read the head message. -/
def disconnected : List (Event Serializer) :=
  .attach 1 advertise :: connects 1 ++ talks 4 ++ .link .closed :: talks 2

theorem disconnected_is_popped :
    ∃ t ∈ (run (start .offline) disconnected).talkers, (∀ session x, .sent session x ∉ t.log) ∧
      t.queue.head_popped = true ∧ ¬ HandedOver t := by
  let head : Slip Serializer := ⟨.head, advertise⟩
  let t : Talker Serializer :=
    { queue := { q_size := 1, head_msg := head, head_popped := true }
      log := [.popped head head none] }
  have final : (run (start .offline) disconnected).talkers = [t] := by rfl
  refine ⟨t, by rw [final]; exact List.mem_singleton_self t, by simp [t], rfl, fun handed => ?_⟩
  obtain ⟨-, session, accepted, -⟩ := handed head head none (by simp [t])
  cases accepted

theorem pops_only_what_was_sent_unhurried :
    Machine.Along step SendSucceeds (start .offline) (connects 0 ++ unhurried) ∧
      Machine.Along step KeepsFront (start .offline) (connects 0 ++ unhurried) ∧
      ∀ t ∈ (run (start .offline) (connects 0 ++ unhurried)).talkers, HandedOver t := by
  have sends : Machine.Along step SendSucceeds (start .offline) (connects 0 ++ unhurried) := by
    decide +kernel
  have front : Machine.Along step KeepsFront (start .offline) (connects 0 ++ unhurried) := by
    decide +kernel
  exact ⟨sends, front, pops_only_what_was_sent sends front⟩

/-! ### The websocket stays open -/

def Calm : Event M → Prop
  | .talk accepts => accepts = true
  | .resetTalkers => False
  | .link _ => False
  | _ => True

theorem calm_link {s : State M} {e : Event M} (calm : Calm e) : (step s e).link = s.link := by
  cases e with
  | resetTalkers => exact calm.elim
  | link c => exact calm.elim
  | _ => simp [step]

theorem sendSucceeds_of_calm {s : State M} {e : Event M} (isOpen : s.link.phase = .opened)
    (calm : Calm e) : SendSucceeds s e := by
  cases e with
  | talk accepts =>
    simp only [SendSucceeds]
    split
    · exact isOpen
    · exact ⟨isOpen, calm⟩
    · trivial
  | _ => trivial

/-- No message is lost while the websocket stays open, but for the oldest of a full queue, as long as no
push overflows a queue that `talk` has read and not yet popped. -/
theorem talk_loses_nothing {events : List (Event M)} (calm : ∀ e ∈ events, Calm e)
    (front : Machine.Along step KeepsFront (start .opened) events) :
    (∀ t ∈ (run (start .opened) events).talkers, HandedOver t ∧ Accounted t) ∧
      Machine.Along step EvictsOldest (start .opened) events := by
  have keep : ∀ (s : State M) (e : Event M), s.link.phase = .opened → Calm e →
      (step s e).link.phase = .opened := by
    intro s e isOpen calm
    rw [calm_link calm]
    exact isOpen
  have sends : Machine.Along step SendSucceeds (start .opened) events := by
    refine Machine.Along.imp ?_ (Machine.Along.with_invariant keep rfl
      (Machine.along_of_forall (start .opened) calm))
    exact fun s e ok => sendSucceeds_of_calm ok.1 ok.2
  refine ⟨fun t member => ?_, evicts_run .opened events⟩
  obtain ⟨i, l, here, rfl⟩ := lane_of_mem member
  have inStep := inStep_run front sends i l here
  exact ⟨inStep.handed, inStep.accounted⟩

/-- A queue of size one: the second message arrives between `next` and `pop` of the first. -/
def overtaken : List (Event Serializer) :=
  .attach 1 advertise :: talks 8 ++ .push 0 (chatter "one" "2") :: talks 4 ++
    .push 0 (chatter "two" "3") :: talks 3

theorem overtaken_is_lost : (∀ e ∈ overtaken, Calm e) ∧
    ∃ t ∈ (run (start .opened) overtaken).talkers, t.queue.q_size = 1 ∧
      ¬ HandedOver t ∧ ¬ Accounted t := by
  let one : Slip Serializer := ⟨.pushed 0, chatter "one" "2"⟩
  let two : Slip Serializer := ⟨.pushed 1, chatter "two" "3"⟩
  let head : Slip Serializer := ⟨.head, advertise⟩
  let t : Talker Serializer :=
    { queue := { q_size := 1, head_msg := head, head_popped := true }
      tickets := 2
      log := [.sent 0 head, .popped head head (some 0), .pushed one, .pushed two, .evicted one,
        .sent 0 one, .popped two one (some 0)] }
  have final : (run (start .opened) overtaken).talkers = [t] := by rfl
  refine ⟨by simp [overtaken, talks, Calm], t, by rw [final]; exact List.mem_singleton_self t, rfl,
    fun handed => ?_, fun accounted => ?_⟩
  · have same : two = one := (handed two one (some 0) (by simp [t])).1
    simp [one, two] at same
  · have kept := accounted two (by simp [t])
    simp [t, one, two, head] at kept

/-- Two messages arrive at once when `talk` is at rest. -/
def overflowing : List (Event Serializer) :=
  .attach 1 advertise :: talks 8 ++ .push 0 (chatter "one" "2") :: talks 8 ++
    [.push 0 (chatter "two" "3"), .push 0 (chatter "three" "4")] ++ talks 8

theorem talk_loses_nothing_overflowing :
    (∃ t ∈ (run (start .opened) overflowing).talkers, .sent 0 ⟨.pushed 0, chatter "one" "2"⟩ ∈ t.log ∧
      .evicted ⟨.pushed 1, chatter "two" "3"⟩ ∈ t.log ∧ .sent 0 ⟨.pushed 2, chatter "three" "4"⟩ ∈ t.log) ∧
      (∀ t ∈ (run (start .opened) overflowing).talkers, HandedOver t ∧ Accounted t) ∧
      Machine.Along step EvictsOldest (start .opened) overflowing := by
  let head : Slip Serializer := ⟨.head, advertise⟩
  let one : Slip Serializer := ⟨.pushed 0, chatter "one" "2"⟩
  let two : Slip Serializer := ⟨.pushed 1, chatter "two" "3"⟩
  let three : Slip Serializer := ⟨.pushed 2, chatter "three" "4"⟩
  let t : Talker Serializer :=
    { queue := { q_size := 1, head_msg := head, head_popped := true }
      tickets := 3
      log := [.sent 0 head, .popped head head (some 0), .pushed one, .sent 0 one, .popped one one (some 0),
        .pushed two, .pushed three, .evicted two, .sent 0 three, .popped three three (some 0)] }
  have final : (run (start .opened) overflowing).talkers = [t] := by rfl
  have calm : ∀ e ∈ overflowing, Calm e := by simp [overflowing, talks, Calm]
  have front : Machine.Along step KeepsFront (start .opened) overflowing := by decide +kernel
  exact ⟨⟨t, by rw [final]; exact List.mem_singleton_self t, by simp [t, one], by simp [t, two],
    by simp [t, three]⟩, talk_loses_nothing calm front⟩

end Rosbridge.Talk
