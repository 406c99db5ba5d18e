import Rosbridge.Endpoint
import Rosbridge.Talk.Handover

/-!
# The withdrawal of a destroyed endpoint

The destructor of an endpoint pushes a last message that withdraws the head message. The queue
stays attached when it is abandoned, and each reconnection resets it like any other.
-/

namespace Rosbridge.Talk

variable {M : Type}

def Entry.sendsHead : Entry M → Bool
  | .sent _ x => x.isHead
  | _ => false

def Entry.sendsWithdrawal : Entry M → Bool
  | .sent _ x => x.isWithdrawal
  | _ => false

/-- No head message is sent after a withdrawal. -/
def NeverAgain (log : List (Entry M)) : Prop :=
  log.Pairwise fun before after => before.sendsWithdrawal = true → after.sendsHead = false

instance (log : List (Entry M)) : Decidable (NeverAgain log) :=
  inferInstanceAs (Decidable (log.Pairwise _))

def Withdrawn (log : List (Entry M)) : Bool := log.any Entry.sendsWithdrawal

/-- The handler resets a queue whose withdrawal was sent only while `talk` holds a message of it. -/
def StaysWithdrawn (s : State M) : Event M → Prop
  | .resetTalkers =>
    s.resetTalkers.all (fun i => s.talkers[i]?.all fun t =>
      !Withdrawn t.log || (s.pc.hold i).taken.isSome) = true
  | _ => True

instance (s : State M) : (e : Event M) → Decidable (StaysWithdrawn s e)
  | .resetTalkers => inferInstanceAs (Decidable (s.resetTalkers.all _ = true))
  | .attach _ _ | .push _ _ | .destroy _ _ | .abandon _ | .talk _ | .link _ => .isTrue trivial

theorem pairwise_append_of_forall {α : Type} {R : α → α → Prop} {xs ys : List α} (h : xs.Pairwise R)
    (quiet : ∀ y ∈ ys, ∀ x, R x y) : (xs ++ ys).Pairwise R := by
  refine List.pairwise_append.mpr ⟨h, ?_, fun x _ y member => quiet y member x⟩
  exact List.pairwise_of_forall_mem_list fun x _ y member => quiet y member x

theorem NeverAgain.append {log new : List (Entry M)} (h : NeverAgain log)
    (quiet : ∀ e ∈ new, e.sendsHead = false) : NeverAgain (log ++ new) :=
  pairwise_append_of_forall h fun e member _ _ => quiet e member

theorem NeverAgain.concat {log : List (Entry M)} (h : NeverAgain log) {e : Entry M}
    (quiet : Withdrawn log = true → e.sendsHead = false) : NeverAgain (log ++ [e]) := by
  refine List.pairwise_append.mpr ⟨h, List.pairwise_singleton _ _, fun before member after last => ?_⟩
  rw [List.mem_singleton.mp last]
  intro withdrawal
  exact quiet (List.any_eq_true.mpr ⟨before, member, withdrawal⟩)

theorem withdrawn_append (log new : List (Entry M)) :
    Withdrawn (log ++ new) = (Withdrawn log || Withdrawn new) := List.any_append

@[simp] theorem withdrawn_push (t : Talker M) (origin : Nat → Origin) (msg : M) :
    Withdrawn (t.push origin msg).log = Withdrawn t.log := by
  rw [Talker.push, withdrawn_append]
  simp [Withdrawn, Entry.sendsWithdrawal]

@[simp] theorem withdrawn_popped (log : List (Entry M)) (removed taken : Slip M)
    (accepted : Option Nat) :
    Withdrawn (log ++ [.popped removed taken accepted]) = Withdrawn log := by
  rw [withdrawn_append]
  simp [Withdrawn, Entry.sendsWithdrawal]

theorem not_head_of_withdrawal {x : Slip M} (withdrawal : x.isWithdrawal = true) : x.isHead = false := by
  obtain ⟨origin, msg⟩ := x
  cases origin with
  | withdrawal ticket => rfl
  | head => simp [Slip.isWithdrawal] at withdrawal
  | pushed ticket => simp [Slip.isWithdrawal] at withdrawal

/-! ### The invariant of a lane -/

structure Buried (l : Lane M) : Prop where
  queued : ∀ x ∈ l.talker.queue.q, x.isHead = false
  never : NeverAgain l.talker.log
  held : Withdrawn l.talker.log = true → ∀ x, l.hold.taken = some x → x.isHead = false
  popped : Withdrawn l.talker.log = true →
    l.talker.queue.head_popped = true ∨ l.hold.taken.isSome = true

def Buried.Allowed (l : Lane M) : LaneEvent M → Prop
  | .reset => Withdrawn l.talker.log = true → l.hold.taken.isSome = true
  | _ => True

theorem buried_fresh (queue_size : Int32) (head_msg : M) (link : Link) :
    Buried (.fresh queue_size head_msg link) where
  queued := by simp [Lane.fresh, Talker.new, TalkerQueue.new]
  never := List.Pairwise.nil
  held := by simp [Lane.fresh]
  popped := by simp [Lane.fresh, Talker.new, Withdrawn]

theorem buried_step {l : Lane M} {e : LaneEvent M} (h : Buried l) (guard : l.Guard e)
    (ok : Buried.Allowed l e) : Buried (l.step e) := by
  obtain ⟨queued, never, held, popped⟩ := h
  cases e with
  | other => exact ⟨queued, never, held, popped⟩
  | push origin msg =>
    have own : ∀ n, origin n ≠ .head := guard
    refine ⟨fun x member => ?_, never.append (by simp [Entry.sendsHead]), ?_, ?_⟩
    · rcases TalkerQueue.mem_push_q member with old | rfl
      · exact queued x old
      · simpa [Slip.isHead] using own l.talker.tickets
    · simpa [Lane.step] using held
    · intro withdrawn
      exact popped ((withdrawn_push l.talker origin msg).symm.trans withdrawn)
  | abandon => exact ⟨queued, never, held, popped⟩
  | empty =>
    have away : l.hold = .away := guard
    exact ⟨queued, never, by simp [Lane.step], by simpa [Lane.step, away] using popped⟩
  | next =>
    have ready : l.hold = .ready := guard
    rw [ready] at popped
    rcases l.next_cases with ⟨isPopped, away⟩ | ⟨x, next, fetched⟩
    · rw [away]
      exact ⟨queued, never, by simp, fun _ => .inl isPopped⟩
    · rw [fetched]
      refine ⟨queued, never, fun withdrawn y taken => ?_, by simp⟩
      obtain rfl : x = y := by simpa using taken
      rcases TalkerQueue.next_cases next with ⟨first, -⟩ | ⟨-, front⟩
      · simp [first] at popped
        simp [popped] at withdrawn
      · exact queued x (List.mem_of_head? front)
  | send =>
    rcases l.send_cases with same | ⟨x, hold, ⟨-, checked⟩ | ⟨-, handled⟩⟩
    · rw [same]
      exact ⟨queued, never, held, popped⟩
    · rw [checked]
      exact ⟨queued, never, by simpa [hold] using held, by simp⟩
    · rw [handled]
      exact ⟨queued, never, by simpa [hold] using held, by simp⟩
  | message_sender accepts =>
    rcases l.message_sender_cases accepts with same | ⟨x, hold, ⟨-, -, -, sent⟩ | ⟨-, handled⟩⟩
    · rw [same]
      exact ⟨queued, never, held, popped⟩
    · have later : Withdrawn l.talker.log = true → x.isHead = false := by
        simpa [hold] using held
      rw [sent]
      refine ⟨queued, never.concat later, fun withdrawn y taken => ?_, by simp⟩
      obtain rfl : x = y := by simpa using taken
      rw [withdrawn_append, Bool.or_eq_true] at withdrawn
      rcases withdrawn with old | new
      · exact later old
      · exact not_head_of_withdrawal (by simpa [Withdrawn, Entry.sendsWithdrawal] using new)
    · rw [handled]
      exact ⟨queued, never, by simpa [hold] using held, by simp⟩
  | pop =>
    rcases l.pop_cases with
      same | ⟨taken, accepted, hold, ⟨isPopped, away⟩ | ⟨removed, queue, -, pop, after⟩⟩
    · rw [same]
      exact ⟨queued, never, held, popped⟩
    · rw [away]
      exact ⟨queued, never, by simp, fun _ => .inl isPopped⟩
    · rw [after]
      obtain ⟨-, subset, isPopped⟩ := TalkerQueue.pop_keeps pop
      exact ⟨fun x member => queued x (subset x member), never.append (by simp [Entry.sendsHead]),
        by simp, fun _ => .inl isPopped⟩
  | reset => exact ⟨queued, never, held, fun withdrawn => .inr (ok withdrawn)⟩
  | link link => exact ⟨queued, never, held, popped⟩
  | opened => exact ⟨queued, never, held, popped⟩

/-! ### Every run -/

theorem buried_allowed {i : Nat} {s : State M} {l : Lane M} {e : Event M} (here : lane i s = some l)
    (stays : StaysWithdrawn s e) : Buried.Allowed l (label i s e) := by
  obtain ⟨found, hold, -, -⟩ := lane_eq_some here
  have sees := label_sees here e
  generalize label i s e = seen at sees
  cases sees with
  | reset current pending =>
    intro withdrawn
    simpa [StaysWithdrawn, current, found, hold, withdrawn] using stays
  | _ => trivial

/-- Once its withdrawal was sent, an endpoint is not registered again. -/
theorem withdrawn_is_never_declared {events : List (Event M)}
    (stays : Machine.Along step StaysWithdrawn (start .offline) events) :
    ∀ t ∈ (run (start .offline) events).talkers, NeverAgain t.log := by
  intro t member
  obtain ⟨i, l, here, rfl⟩ := lane_of_mem member
  have buried : Buried l := by
    refine lane_invariant buried_fresh ?_ stays i l here
    exact fun _ _ _ _ here before guard ok => buried_step before guard (buried_allowed here ok)
  exact buried.never

/-- An endpoint lives through one session and is destroyed in it. -/
def lifetime (attach : Event Serializer) (destroy : List (Event Serializer)) : List (Event Serializer) :=
  attach :: connects 1 ++ talks 8 ++ destroy ++ talks 8

def publisher : List (Event Serializer) :=
  let p : Publisher := { topic := ascii "/chatter", type := ascii "std_msgs/String" }
  lifetime (p.attach (ascii "1")) (p.destroy 0 (ascii "2"))

def subscriber : List (Event Serializer) :=
  let s : Subscriber := { topic := ascii "/chatter", type := ascii "std_msgs/String" }
  lifetime (s.attach (ascii "1")) (s.destroy 0 (ascii "2"))

def server : List (Event Serializer) :=
  let s : ServiceServer := { service := ascii "/add", type := ascii "rospy/AddTwoInts" }
  lifetime (s.attach (ascii "1")) (s.destroy 0 (ascii "2"))

theorem withdrawn_is_never_declared_once :
    (∀ t ∈ (run (start .offline) publisher).talkers, NeverAgain t.log) ∧
      (∀ t ∈ (run (start .offline) subscriber).talkers, NeverAgain t.log) ∧
      ∀ t ∈ (run (start .offline) server).talkers, NeverAgain t.log := by
  refine ⟨withdrawn_is_never_declared ?_, withdrawn_is_never_declared ?_,
    withdrawn_is_never_declared ?_⟩ <;> decide +kernel

def reconnects : List (Event Serializer) :=
  [.link .closed, .link .clear_sender, .link .clear_active] ++ connects 1 ++ talks 8

/-- The next session registers each of them again. -/
theorem destroyed_is_declared :
    (∃ t ∈ (run (start .offline) (publisher ++ reconnects)).talkers,
        t.queue.orphan = true ∧ ¬ NeverAgain t.log) ∧
      (∃ t ∈ (run (start .offline) (subscriber ++ reconnects)).talkers,
        t.queue.orphan = true ∧ ¬ NeverAgain t.log) ∧
      ∃ t ∈ (run (start .offline) (server ++ reconnects)).talkers,
        t.queue.orphan = true ∧ ¬ NeverAgain t.log := by
  decide +kernel

end Rosbridge.Talk
