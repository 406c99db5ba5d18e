import Rosbridge.Listen.Consumer
import Rosbridge.Talk.Anytime

/-!
# No queue is read when it is empty

A consumer asks a queue whether it is empty, reads it and removes from it in three critical
sections. Pushes and resets come in between, but only its consumer makes a queue empty: an overflow
leaves as many messages as the queue can hold, and it held one.
-/

namespace Rosbridge

variable {M : Type}

namespace TalkerQueue

theorem empty_push {t : TalkerQueue M} (msg : M) (bounded : t.WithinSize) (some_left : t.empty = false) :
    (t.push msg).empty = false := by
  simp only [TalkerQueue.empty, Bool.and_eq_false_iff, List.isEmpty_eq_false_iff] at some_left ⊢
  refine some_left.imp_right fun nonempty => ?_
  have stored := List.length_pos_iff.mpr nonempty
  have room : 0 < t.capacity := Nat.lt_of_lt_of_le stored bounded
  rw [push_q, ← List.length_pos_iff, Recent.length_rtake, List.length_append]
  omega

theorem next_of_empty {t : TalkerQueue M} (some_left : t.empty = false) : ∃ x, t.next = some x := by
  cases isPopped : t.head_popped with
  | false => exact ⟨t.head_msg, by simp [TalkerQueue.next, isPopped]⟩
  | true =>
    cases contents : t.q with
    | nil => simp [TalkerQueue.empty, isPopped, contents] at some_left
    | cons x rest => exact ⟨x, by simp [TalkerQueue.next, isPopped, contents]⟩

theorem pop_of_next {t : TalkerQueue M} {x : M} (next : t.next = some x) : ∃ t', t.pop = some t' := by
  rcases next_cases next with ⟨pending, -⟩ | ⟨isPopped, front⟩
  · exact ⟨{ t with head_popped := true }, by simp [TalkerQueue.pop, pending]⟩
  · obtain ⟨rest, contents⟩ := List.head?_eq_some_iff.mp front
    exact ⟨{ t with q := rest }, by simp [TalkerQueue.pop, isPopped, contents]⟩

end TalkerQueue

namespace Talk

/-! ### The sender loop -/

def Pc.queue? : Pc M → Option Nat
  | .next i => some i
  | .send i _ => some i
  | .message_sender i _ => some i
  | .pop i _ _ => some i
  | _ => none

theorem hold_of_queue {pc : Pc M} {i : Nat} (used : pc.queue? = some i) : pc.hold i ≠ .away := by
  cases pc <;> simp_all [Pc.queue?, Pc.hold]

/-- Where `talk` calls `next` or `pop`, the queue exists, and `q.front()` or `q.pop()` is for a
container that is not empty. -/
def NeverReadsEmpty (s : State M) : Prop :=
  s.pc ≠ .undefined ∧ ∀ i, s.pc.queue? = some i → ∃ t, s.talkers[i]? = some t ∧
    (t.queue.head_popped = true → t.queue.q ≠ [])

structure Stocked (l : Lane M) : Prop where
  bounded : l.talker.queue.WithinSize
  stocked : l.hold ≠ .away → l.talker.queue.empty = false

def Stocked.Allowed (l : Lane M) : LaneEvent M → Prop
  | .empty => l.talker.queue.empty = false
  | _ => True

theorem stocked_fresh (queue_size : Int32) (head_msg : M) (link : Link) :
    Stocked (.fresh queue_size head_msg link) where
  bounded := Nat.zero_le _
  stocked away := absurd rfl away

theorem stocked_step {l : Lane M} {e : LaneEvent M} (h : Stocked l) (guard : l.Guard e)
    (ok : Stocked.Allowed l e) : Stocked (l.step e) := by
  refine ⟨withinSize_step h.bounded e, ?_⟩
  obtain ⟨bounded, stocked⟩ := h
  cases e with
  | other => exact stocked
  | push origin msg => exact fun used => TalkerQueue.empty_push _ bounded (stocked used)
  | abandon => exact stocked
  | empty => exact fun _ => ok
  | next =>
    have ready : l.hold = .ready := guard
    rcases l.next_cases with ⟨-, away⟩ | ⟨x, -, fetched⟩
    · rw [away]
      exact fun used => absurd rfl used
    · rw [fetched]
      exact fun _ => stocked (by simp [ready])
  | send =>
    rcases l.send_cases with same | ⟨x, hold, ⟨-, checked⟩ | ⟨-, handled⟩⟩
    · rw [same]
      exact stocked
    · rw [checked]
      exact fun _ => stocked (by simp [hold])
    · rw [handled]
      exact fun _ => stocked (by simp [hold])
  | message_sender accepts =>
    rcases l.message_sender_cases accepts with same | ⟨x, hold, ⟨-, -, -, sent⟩ | ⟨-, handled⟩⟩
    · rw [same]
      exact stocked
    · rw [sent]
      exact fun _ => stocked (by simp [hold])
    · rw [handled]
      exact fun _ => stocked (by simp [hold])
  | pop =>
    rcases l.pop_cases with same | ⟨taken, accepted, -, ⟨-, away⟩ | ⟨removed, queue, -, pop, popped⟩⟩
    · rw [same]
      exact stocked
    · rw [away]
      exact fun used => absurd rfl used
    · rw [popped]
      exact fun used => absurd rfl used
  | reset => exact fun _ => rfl
  | link link => exact stocked
  | opened => exact stocked

theorem label_empty {i : Nat} {s : State M} {l : Lane M} {e : Event M} (here : lane i s = some l)
    (seen : label i s e = .empty) : l.talker.queue.empty = false := by
  obtain ⟨found, -, -, -⟩ := lane_eq_some here
  cases e with
  | talk accepts =>
    simp only [label] at seen
    cases pc : s.pc with
    | empty j =>
      simp only [pc, found] at seen
      split at seen
      · split at seen
        · cases seen
        · rename_i some_left
          simpa using some_left
      · cases seen
    | _ =>
      simp only [pc] at seen
      (try split at seen) <;> cases seen
  | link c =>
    simp only [label] at seen
    split at seen <;> cases seen
  | attach queue_size head_msg => cases seen
  | _ =>
    simp only [label] at seen
    split at seen <;> cases seen

theorem stocked_allowed {i : Nat} {s : State M} {l : Lane M} {e : Event M}
    (here : lane i s = some l) : Stocked.Allowed l (label i s e) := by
  cases seen : label i s e with
  | empty => exact label_empty here seen
  | _ => trivial

structure Inside (s : State M) : Prop where
  defined : s.pc ≠ .undefined
  attached : ∀ i, s.pc.queue? = some i → i < s.talkers.length
  stocked : ∀ i l, lane i s = some l → Stocked l

theorem Inside.queue {s : State M} (h : Inside s) {i : Nat} (used : s.pc.queue? = some i) :
    ∃ t, s.talkers[i]? = some t ∧ t.queue.empty = false := by
  obtain ⟨t, found⟩ : ∃ t, s.talkers[i]? = some t := ⟨_, List.getElem?_eq_getElem (h.attached i used)⟩
  exact ⟨t, found, (h.stocked i _ (lane_some found)).stocked (hold_of_queue used)⟩

/-- A step of `talk` ends where it is defined, at a queue that was there already. -/
theorem talk_inside {s : State M} (h : Inside s) (accepts : Bool) :
    (talk s accepts).pc ≠ .undefined ∧
      ∀ i, (talk s accepts).pc.queue? = some i → i < (talk s accepts).talkers.length := by
  have attached := h.attached
  unfold talk
  cases pc : s.pc with
  | idle => simp [Pc.queue?]
  | active i =>
    dsimp only
    split <;> simp [Pc.queue?]
  | empty i =>
    dsimp only
    split
    · simp [Pc.queue?]
    · rename_i t found
      have inside : i < s.talkers.length := (List.getElem?_eq_some_iff.mp found).1
      split
      · simp [Pc.queue?]
      · simpa [Pc.queue?] using inside
  | next i =>
    obtain ⟨t, found, some_left⟩ := h.queue (i := i) (by rw [pc]; rfl)
    obtain ⟨x, next⟩ := TalkerQueue.next_of_empty some_left
    have inside : i < s.talkers.length := (List.getElem?_eq_some_iff.mp found).1
    simpa [found, next, Pc.queue?] using inside
  | send i x =>
    have inside : i < s.talkers.length := attached i (by rw [pc]; rfl)
    dsimp only
    split <;> simpa [Pc.queue?] using inside
  | message_sender i x =>
    have inside : i < s.talkers.length := attached i (by rw [pc]; rfl)
    simpa [Pc.queue?] using inside
  | pop i x accepted =>
    obtain ⟨t, found, some_left⟩ := h.queue (i := i) (by rw [pc]; rfl)
    obtain ⟨y, next⟩ := TalkerQueue.next_of_empty some_left
    obtain ⟨queue, pop⟩ := TalkerQueue.pop_of_next next
    simp [found, Talker.pop, next, pop, Pc.queue?]
  | undefined => exact absurd pc h.defined

theorem inside_step {s : State M} (h : Inside s) (e : Anytime M) : Inside (Anytime.step s e) := by
  have kept {t : State M} (pc : t.pc = s.pc) (size : s.talkers.length ≤ t.talkers.length) :
      t.pc ≠ .undefined ∧ ∀ i, t.pc.queue? = some i → i < t.talkers.length := by
    rw [pc]
    exact ⟨h.defined, fun i used => Nat.lt_of_lt_of_le (h.attached i used) size⟩
  have moved : (Anytime.step s e).pc ≠ .undefined ∧
      ∀ i, (Anytime.step s e).pc.queue? = some i → i < (Anytime.step s e).talkers.length := by
    cases e with
    | reset i => exact kept rfl (by simp [Anytime.step])
    | event e =>
      cases e with
      | attach queue_size head_msg =>
        refine kept ?_ ?_
        · simp only [Anytime.step, step, attach]
          split <;> rfl
        · simp only [Anytime.step, step, attach]
          split <;> simp
      | talk accepts => exact talk_inside h accepts
      | resetTalkers =>
        refine kept ?_ ?_
        · simp only [Anytime.step, step, resetTalkers]
          split <;> (try split) <;> rfl
        · simp only [Anytime.step, step, resetTalkers]
          split <;> (try split) <;> simp
      | link c => exact kept rfl (Nat.le_refl _)
      | _ => exact kept rfl (by simp [Anytime.step, step])
  refine ⟨moved.1, moved.2, fun i l' after => ?_⟩
  cases e with
  | event e =>
    rcases lane_step after with ⟨l, here, rfl⟩ | ⟨queue_size, head_msg, -, rfl⟩
    · exact stocked_step (h.stocked i l here) (lane_guard here e) (stocked_allowed here)
    · exact stocked_fresh queue_size head_msg s.link
  | reset j =>
    rw [Anytime.lane_reset] at after
    obtain ⟨l, here, rfl⟩ := Option.map_eq_some_iff.mp after
    have before := h.stocked i l here
    split
    · exact ⟨before.bounded, fun _ => rfl⟩
    · exact before

theorem inside_run (phase : Phase) (events : List (Anytime M)) :
    Inside (Anytime.run (start phase) events) := by
  have keep : ∀ (s : State M) (e : Anytime M), Inside s → Inside (Anytime.step s e) :=
    fun s e h => inside_step h e
  refine Machine.invariant_run keep ?_ events
  exact ⟨by simp [start], by simp [start, Pc.queue?], by simp [lane, start]⟩

end Talk

namespace Listen

/-! ### The receiver threads -/

/-- A destructor disowns the queue while the thread, or the network, still works on it. -/
inductive Disowned where
  | event (e : Event)
  | abandon

def Disowned.step (kind : Kind) (s : State) : Disowned → State
  | .event e => Listen.step kind s e
  | .abandon => { s with queue := s.queue.abandon }

def Pc.uses : Pc → Bool
  | .next => true
  | .payload _ => true
  | .callback _ _ => true
  | .pop _ => true
  | _ => false

def NeverReadsEmpty (s : State) : Prop := s.pc ≠ .undefined ∧ (s.pc.uses = true → s.queue.q ≠ [])

structure Stocked (s : State) : Prop where
  bounded : s.queue.q.length ≤ s.queue.capacity
  safe : NeverReadsEmpty s

theorem stocked_push {s : State} (h : Stocked s) (msg : Unserializer) : Stocked (push s msg) := by
  have stored : (push s msg).queue.q.length = min s.queue.capacity (s.queue.q.length + 1) := by
    show (s.queue.push _).q.length = _
    rw [ListenerQueue.push_q, Recent.length_rtake, List.length_append, List.length_singleton]
  refine ⟨?_, h.safe.1, fun used => ?_⟩
  · show _ ≤ s.queue.capacity
    omega
  · have some_left := List.length_pos_iff.mpr (h.safe.2 used)
    have bounded := h.bounded
    rw [← List.length_pos_iff, stored]
    omega

/-- A step of the thread that leaves the queue alone. -/
theorem stocked_moves {s : State} (h : Stocked s) {pc : Pc} {log : List Entry} (defined : pc ≠ .undefined)
    (used : pc.uses = true → s.queue.q ≠ []) : Stocked { s with pc := pc, log := log } :=
  ⟨h.bounded, defined, used⟩

theorem stocked_listener {s : State} (h : Stocked s) (kind : Kind) (returned : Option Object) :
    Stocked (listener kind s returned) := by
  have some_left (used : s.pc.uses = true) : s.queue.q ≠ [] := h.safe.2 used
  unfold listener
  cases pc : s.pc with
  | check =>
    dsimp only
    split <;> exact stocked_moves h (by simp) (by simp [Pc.uses])
  | empty =>
    dsimp only
    split
    · exact stocked_moves h (by simp) (by simp [Pc.uses])
    · rename_i nonempty
      exact stocked_moves h (by simp) fun _ => by simpa [ListenerQueue.empty] using nonempty
  | next =>
    obtain ⟨x, rest, contents⟩ := List.exists_cons_of_ne_nil (some_left (by rw [pc]; rfl))
    simp only [ListenerQueue.next, contents, List.head?_cons]
    exact stocked_moves h (by simp) fun _ => by simp [contents]
  | payload x =>
    have left := some_left (by rw [pc]; rfl)
    dsimp only
    split <;> exact stocked_moves h (by simp) fun _ => left
  | callback x payload =>
    have left := some_left (by rw [pc]; rfl)
    dsimp only
    split
    · exact stocked_moves h (by simp) fun _ => left
    · exact stocked_moves h (by simp) fun _ => left
    · split <;> exact stocked_moves h (by simp) fun _ => left
    · exact stocked_moves h (by simp) fun _ => left
  | pop x =>
    obtain ⟨y, rest, contents⟩ := List.exists_cons_of_ne_nil (some_left (by rw [pc]; rfl))
    have bounded := h.bounded
    rw [contents, List.length_cons] at bounded
    simp only [ListenerQueue.next, ListenerQueue.pop, contents, List.head?_cons]
    refine ⟨Nat.le_of_succ_le bounded, by simp, by simp [Pc.uses]⟩
  | done => exact h
  | terminated => exact h
  | undefined => exact absurd pc h.safe.1

theorem stocked_step {kind : Kind} {s : State} (h : Stocked s) (e : Disowned) :
    Stocked (Disowned.step kind s e) := by
  cases e with
  | abandon => exact ⟨h.bounded, h.safe⟩
  | event e =>
    show Stocked (Listen.step kind s e)
    unfold Listen.step
    split
    · exact h
    · exact stocked_push h _
    · exact ⟨h.bounded, h.safe⟩
    · exact stocked_listener h kind _

end Listen

/-- Whatever is pushed, reset and abandoned between the steps of its consumer, no queue of any size
is read or popped when its container is empty. -/
theorem never_reads_empty :
    (∀ (phase : Talk.Phase) (events : List (Talk.Anytime M)),
      Talk.NeverReadsEmpty (Talk.Anytime.run (Talk.start phase) events)) ∧
    (∀ (kind : Listen.Kind) (queue_size : Int32) (events : List Listen.Disowned),
      Listen.NeverReadsEmpty
        (Machine.run (Listen.Disowned.step kind) (Listen.start queue_size) events)) := by
  refine ⟨fun phase events => ?_, fun kind queue_size events => ?_⟩
  · have inside := Talk.inside_run phase events
    refine ⟨inside.defined, fun i used => ?_⟩
    obtain ⟨t, found, some_left⟩ := inside.queue used
    refine ⟨t, found, fun isPopped => ?_⟩
    simpa [TalkerQueue.empty, isPopped] using some_left
  · have initially : Listen.Stocked (Listen.start queue_size) :=
      ⟨Nat.zero_le _, by simp [Listen.start], by simp [Listen.start, Listen.Pc.uses]⟩
    have keep : ∀ s e, Listen.Stocked s → Listen.Stocked (Listen.Disowned.step kind s e) :=
      fun s e h => Listen.stocked_step h e
    exact (Machine.invariant_run keep initially events).safe

end Rosbridge
