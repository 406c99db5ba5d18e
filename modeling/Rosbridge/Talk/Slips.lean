import Rosbridge.Talk.RoundRobin

/-!
# The messages of a queue

What holds of every message that a queue ever takes in holds of every message that it holds, that `talk`
holds of it, and that a session took from it. A session takes at most one message in a step.
-/

namespace Rosbridge.Talk

variable {M : Type}

structure EverySlip (Q : Slip M → Prop) (l : Lane M) : Prop where
  head : Q l.talker.queue.head_msg
  queued : ∀ x ∈ l.talker.queue.q, Q x
  held : ∀ x, l.hold.taken = some x → Q x
  sent : ∀ session, ∀ x ∈ sentIn session l.talker.log, Q x

def heard (i session : Nat) (s : State M) (e : Event M) : List (Slip M) :=
  ((wire s e).toList.filter fun w => w.1 = i ∧ s.link.session = session).map Prod.snd

theorem sentIn_quiet {l : Lane M} {e : LaneEvent M} (quiet : ∀ accepts, e ≠ .message_sender accepts)
    (session : Nat) : sentIn session (l.step e).talker.log = sentIn session l.talker.log := by
  cases e with
  | push origin msg => exact sentIn_push session l.talker origin msg
  | next => rcases l.next_cases with ⟨-, moved⟩ | ⟨x, -, moved⟩ <;> rw [moved]
  | send => rcases l.send_cases with moved | ⟨x, -, ⟨-, moved⟩ | ⟨-, moved⟩⟩ <;> rw [moved]
  | message_sender accepts => exact absurd rfl (quiet accepts)
  | pop =>
    rcases l.pop_cases with same | ⟨taken, accepted, -, ⟨-, moved⟩ | ⟨removed, queue, -, -, moved⟩⟩
    · rw [same]
    · rw [moved]
    · rw [moved]
      exact sentIn_popped session _ removed taken accepted
  | _ => rfl

/-- What a session has taken from a queue grows by what it takes from it in the step. -/
theorem sentIn_step {i : Nat} {s : State M} {l : Lane M} (here : lane i s = some l) (e : Event M)
    (session : Nat) : sentIn session (l.step (label i s e)).talker.log =
      sentIn session l.talker.log ++ heard i session s e := by
  obtain ⟨-, hold, link, -⟩ := lane_eq_some here
  have sees := label_sees here e
  by_cases sending : ∃ accepts x, e = .talk accepts ∧ s.pc = .message_sender i x
  · obtain ⟨accepts, x, rfl, pc⟩ := sending
    have checked : l.hold = .checked x := by rw [← hold, pc, Pc.hold, if_pos rfl]
    rw [show label i s (.talk accepts) = .message_sender accepts by simp [label, pc]]
    rcases l.message_sender_cases accepts with same | ⟨y, hold', ⟨taken, -, -, sent⟩ | ⟨refused, handled⟩⟩
    · have held := congrArg Lane.hold same
      simp [Lane.step, checked] at held
    · obtain rfl : x = y := by simpa [checked] using hold'
      rw [sent]
      by_cases same : l.link.session = session
      · subst same
        simp [sentIn_sent_self, heard, wire, pc, link, taken]
      · simp [sentIn_sent_of_ne _ _ same, heard, wire, pc, link, taken, same]
    · have none_taken : s.link.message_sender accepts = none := by rw [link]; exact if_neg refused
      rw [handled]
      simp [heard, wire, pc, none_taken]
  · have quiet : ∀ accepts, label i s e ≠ .message_sender accepts := by
      intro accepts same
      rw [same] at sees
      cases sees with
      | message_sender accepts x pc checked => exact sending ⟨accepts, x, rfl, pc⟩
    have nothing : heard i session s e = [] := by
      cases e with
      | talk accepts =>
        cases pc : s.pc with
        | message_sender j x =>
          have different : j ≠ i := by
            rintro rfl
            exact sending ⟨accepts, x, rfl, pc⟩
          cases taken : s.link.message_sender accepts <;> simp [heard, wire, pc, taken, different]
        | _ => simp [heard, wire, pc]
      | _ => rfl
    rw [sentIn_quiet quiet, nothing, List.append_nil]

section EverySlip

variable {Q : Slip M → Prop}

theorem everySlip_fresh {queue_size : Int32} {head_msg : M} (head : Q ⟨.head, head_msg⟩) (link : Link) :
    EverySlip Q (.fresh queue_size head_msg link) where
  head := head
  queued := by simp [Lane.fresh, Talker.new, TalkerQueue.new]
  held := by simp [Lane.fresh]
  sent := by simp [Lane.fresh, Talker.new, sentIn]

theorem everySlip_push {l : Lane M} (h : EverySlip Q l) {origin : Nat → Origin} {msg : M}
    (pushed : Q ⟨origin l.talker.tickets, msg⟩) : EverySlip Q (l.step (.push origin msg)) where
  head := h.head
  queued x member := by
    rcases TalkerQueue.mem_push_q member with old | rfl
    · exact h.queued x old
    · exact pushed
  held := h.held
  sent session x member := h.sent session x (by rwa [← sentIn_push session l.talker origin msg])

/-- A step of `talk` that only moves on. -/
theorem everySlip_moves {l : Lane M} (h : EverySlip Q l) {hold : Hold M}
    (held : ∀ x, hold.taken = some x → Q x) : EverySlip Q { l with hold := hold } :=
  ⟨h.head, h.queued, held, h.sent⟩

theorem everySlip_step {l : Lane M} {e : LaneEvent M} (h : EverySlip Q l)
    (quiet : ∀ origin msg, e ≠ .push origin msg) : EverySlip Q (l.step e) := by
  cases e with
  | push origin msg => exact absurd rfl (quiet origin msg)
  | empty => exact everySlip_moves h (by simp)
  | next =>
    rcases l.next_cases with ⟨-, moved⟩ | ⟨x, next, moved⟩
    · rw [moved]
      exact everySlip_moves h (by simp)
    · rw [moved]
      apply everySlip_moves h
      intro y taken
      obtain rfl : x = y := by simpa using taken
      rcases TalkerQueue.next_cases next with ⟨-, rfl⟩ | ⟨-, front⟩
      · exact h.head
      · exact h.queued x (List.mem_of_head? front)
  | send =>
    rcases l.send_cases with same | ⟨x, hold, ⟨-, moved⟩ | ⟨-, moved⟩⟩
    · rwa [same]
    · rw [moved]
      exact everySlip_moves h (by simpa [hold] using h.held)
    · rw [moved]
      exact everySlip_moves h (by simpa [hold] using h.held)
  | message_sender accepts =>
    rcases l.message_sender_cases accepts with same | ⟨x, hold, ⟨-, -, -, sent⟩ | ⟨-, moved⟩⟩
    · rwa [same]
    · have own : Q x := h.held x (by rw [hold]; rfl)
      rw [sent]
      refine ⟨h.head, h.queued, by simpa using own, fun session y member => ?_⟩
      by_cases same : l.link.session = session
      · subst same
        rw [sentIn_sent_self] at member
        rcases List.mem_append.mp member with old | new
        · exact h.sent _ y old
        · rwa [List.mem_singleton.mp new]
      · rw [sentIn_sent_of_ne _ _ same] at member
        exact h.sent session y member
    · rw [moved]
      exact everySlip_moves h (by simpa [hold] using h.held)
  | pop =>
    rcases l.pop_cases with same | ⟨taken, accepted, -, ⟨-, moved⟩ | ⟨removed, queue, -, pop, popped⟩⟩
    · rwa [same]
    · rw [moved]
      exact everySlip_moves h (by simp)
    · obtain ⟨head_msg, subset, -⟩ := TalkerQueue.pop_keeps pop
      rw [popped]
      refine ⟨by rw [head_msg]; exact h.head, fun x member => h.queued x (subset x member), by simp,
        fun session x member => ?_⟩
      rw [sentIn_popped] at member
      exact h.sent session x member
  | _ => exact ⟨h.head, h.queued, h.held, h.sent⟩

end EverySlip

end Rosbridge.Talk
