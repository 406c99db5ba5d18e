import Rosbridge.Talk.Anytime
import Rosbridge.Talk.RoundRobin

/-!
# The sender loop while the websocket stays open

What a step of `talk` can do to one queue, and what follows for the messages that the queue holds: none of
them has been sent, but for the one that `talk` has sent and not popped.
-/

namespace Rosbridge.Talk

variable {M : Type}

/-- A step of `talk`, as queue `i` with the talker `t` sees it. -/
inductive Passes (i : Nat) (t : Talker M) : Pc M → Pc M → Talker M → Prop where
  | begins : Passes i t .idle (.active 0) t
  | ends (j : Nat) (beyond : i < j) : Passes i t (.active j) .idle t
  | misses (j : Nat) (beyond : i < j) : Passes i t (.empty j) .idle t
  | visits (j : Nat) : Passes i t (.active j) (.empty j) t
  | skips (j : Nat) (empty : j = i → t.queue.contents = []) : Passes i t (.empty j) (.active (j + 1)) t
  | finds (j : Nat) : Passes i t (.empty j) (.next j) t
  | reads (j : Nat) (x : Slip M) (front : j = i → t.queue.next = some x) :
      Passes i t (.next j) (.send j x) t
  | checks (j : Nat) (x : Slip M) : Passes i t (.send j x) (.message_sender j x) t
  | sends (x : Slip M) (session : Nat) :
      Passes i t (.message_sender i x) (.pop i x (some session)) (t.transmit x (some session))
  | sends_other (j : Nat) (other : j ≠ i) (x : Slip M) (accepted : Option Nat) :
      Passes i t (.message_sender j x) (.pop j x accepted) t
  | pops (x : Slip M) (accepted : Option Nat) (t' : Talker M) (popped : t.pop x accepted = some t') :
      Passes i t (.pop i x accepted) (.active (i + 1)) t'
  | pops_other (j : Nat) (other : j ≠ i) (x : Slip M) (accepted : Option Nat) :
      Passes i t (.pop j x accepted) (.active (j + 1)) t
  | stuck (pc : Pc M) (empty : (pc.hold i).taken ≠ none → t.queue.contents = []) :
      Passes i t pc .undefined t

theorem contents_of_pop_none {t : Talker M} {x : Slip M} {accepted : Option Nat}
    (stuck : t.pop x accepted = none) : t.queue.contents = [] := by
  cases held : t.queue.contents with
  | nil => rfl
  | cons y rest =>
    obtain ⟨queue, popped, -⟩ := TalkerQueue.pop_contents held
    have front : t.queue.next = some y := by rw [TalkerQueue.next_eq, held]; rfl
    simp [Talker.pop, front, popped] at stuck

theorem talk_passes {i : Nat} {s : State M} {t : Talker M} (opened : s.link.phase = .opened)
    (found : s.talkers[i]? = some t) :
    ∃ t', (talk s true).talkers[i]? = some t' ∧ Passes i t s.pc (talk s true).pc t' := by
  have inside : i < s.talkers.length := (List.getElem?_eq_some_iff.mp found).1
  have active : s.link.active = true := by simp [Link.active, opened]
  have accepted : s.link.message_sender true = some s.link.session := if_pos ⟨opened, rfl⟩
  unfold talk
  cases pc : s.pc with
  | idle => exact ⟨t, found, .begins⟩
  | active j =>
    dsimp only
    split
    · exact ⟨t, found, .visits j⟩
    · rename_i beyond
      refine ⟨t, found, .ends j ?_⟩
      simp only [active, and_true] at beyond
      omega
  | empty j =>
    dsimp only
    split
    · rename_i missing
      exact ⟨t, found, .misses j (by have := List.getElem?_eq_none_iff.mp missing; omega)⟩
    · rename_i u here
      split
      · rename_i empty
        refine ⟨t, found, .skips j fun same => ?_⟩
        subst same
        obtain rfl : t = u := Option.some.inj (found.symm.trans here)
        rw [TalkerQueue.empty_eq] at empty
        exact List.isEmpty_iff.mp empty
      · exact ⟨t, found, .finds j⟩
  | next j =>
    dsimp only
    split
    · refine ⟨t, found, .stuck _ fun held => ?_⟩
      by_cases same : j = i <;> simp [Pc.hold, same] at held
    · rename_i x front
      refine ⟨t, found, .reads j x fun same => ?_⟩
      subst same
      simpa [found] using front
  | send j x =>
    rw [active]
    exact ⟨t, found, .checks j x⟩
  | message_sender j x =>
    rw [accepted]
    by_cases same : j = i
    · subst same
      refine ⟨t.transmit x (some s.link.session), ?_, .sends x _⟩
      rw [List.getElem?_modify_eq, found]
      rfl
    · refine ⟨t, ?_, .sends_other j same x _⟩
      rw [List.getElem?_modify_ne _ _ same, found]
  | pop j x accepted =>
    dsimp only
    split
    · rename_i stuck
      refine ⟨t, found, .stuck _ fun held => ?_⟩
      by_cases same : j = i
      · subst same
        rw [found] at stuck
        exact contents_of_pop_none stuck
      · simp [Pc.hold, same] at held
    · rename_i t' popped
      by_cases same : j = i
      · subst same
        rw [found] at popped
        refine ⟨t', ?_, .pops x accepted t' popped⟩
        rw [List.getElem?_set_self inside]
      · refine ⟨t, ?_, .pops_other j same x accepted⟩
        rw [List.getElem?_set_ne same, found]
  | undefined =>
    dsimp only
    rw [pc]
    exact ⟨t, found, .stuck _ fun held => absurd rfl held⟩

/-! ### What has not been sent -/

/-- Pushed before the queue drew that ticket, or the head message. -/
def Slip.before (n : Nat) (x : Slip M) : Prop := x.isHead = true ∨ x.ticket < n

/-- No message of the queue has been sent, but for the one that `talk` is about to pop. The message that
`talk` has read is the next of the queue, or gone from it. -/
structure Unsent (t : Talker M) (hold : Hold M) : Prop where
  nodup : t.queue.contents.Nodup
  front : ∀ x, hold.taken = some x → t.queue.next = some x ∨ x ∉ t.queue.contents
  unsent : ∀ x ∈ t.queue.contents, ∀ session, .sent session x ∈ t.log → ∃ accepted, hold = .handled x accepted
  handled : ∀ x accepted, hold = .handled x accepted → ∃ session, .sent session x ∈ t.log
  known : ∀ x, x ∈ t.queue.contents ∨ (∃ session, .sent session x ∈ t.log) ∨ hold.taken = some x →
    x.before t.tickets

theorem Slip.before_succ {n : Nat} {x : Slip M} (h : x.before n) : x.before (n + 1) :=
  h.imp_right Nat.lt_succ_of_lt

theorem not_before_new {origin : Nat → Origin} (pushes : origin = .pushed ∨ origin = .withdrawal) (n : Nat)
    (msg : M) : ¬ (⟨origin n, msg⟩ : Slip M).before n := by
  rcases pushes with rfl | rfl <;> simp [Slip.before, Slip.isHead, Slip.ticket, Origin.ticket]

theorem unsent_new (queue_size : Int32) (head_msg : M) : Unsent (.new queue_size head_msg) .away where
  nodup := by simp [Talker.new, TalkerQueue.new, TalkerQueue.contents]
  front x taken := by cases taken
  unsent x member session sent := by simp [Talker.new] at sent
  handled x accepted hold := by cases hold
  known x member := by
    refine .inl ?_
    simp only [Talker.new, TalkerQueue.new, TalkerQueue.contents] at member
    simp only [Bool.false_eq_true, ↓reduceIte, List.append_nil, List.mem_singleton, List.not_mem_nil,
      exists_false, Hold.taken_away, reduceCtorEq, or_false] at member
    rw [member]
    rfl

/-- `talk` moves on, without a message that it has sent. -/
theorem unsent_moves {t : Talker M} {hold hold' : Hold M} (h : Unsent t hold)
    (before : ∀ x accepted, hold ≠ .handled x accepted) (after : ∀ x accepted, hold' ≠ .handled x accepted)
    (takes : ∀ x, hold'.taken = some x → hold.taken = some x ∨ t.queue.next = some x) : Unsent t hold' where
  nodup := h.nodup
  front x taken := by
    rcases takes x taken with same | front
    · exact h.front x same
    · exact .inl front
  unsent x member session sent := by
    obtain ⟨accepted, handled⟩ := h.unsent x member session sent
    exact absurd handled (before x accepted)
  handled x accepted handled := absurd handled (after x accepted)
  known x member := by
    rcases member with member | sent | taken
    · exact h.known x (.inl member)
    · exact h.known x (.inr (.inl sent))
    · rcases takes x taken with same | front
      · exact h.known x (.inr (.inr same))
      · rw [TalkerQueue.next_eq] at front
        exact h.known x (.inl (List.mem_of_head? front))

theorem unsent_transmit {t : Talker M} {x : Slip M} (h : Unsent t (.checked x)) (session : Nat) :
    Unsent (t.transmit x (some session)) (.handled x (some session)) where
  nodup := h.nodup
  front y taken := h.front y taken
  unsent y member other sent := by
    have sents : .sent other y ∈ t.log ++ [.sent session x] := sent
    rw [List.mem_append, List.mem_singleton] at sents
    rcases sents with old | new
    · obtain ⟨accepted, handled⟩ := h.unsent y member other old
      cases handled
    · cases new
      exact ⟨some session, rfl⟩
  handled y accepted handled := by
    cases handled
    exact ⟨session, List.mem_append_right _ List.mem_cons_self⟩
  known y member := by
    rcases member with member | ⟨other, sent⟩ | taken
    · exact h.known y (.inl member)
    · have sents : .sent other y ∈ t.log ++ [.sent session x] := sent
      rw [List.mem_append, List.mem_singleton] at sents
      rcases sents with old | new
      · exact h.known y (.inr (.inl ⟨other, old⟩))
      · cases new
        exact h.known _ (.inr (.inr rfl))
    · exact h.known y (.inr (.inr taken))

theorem contents_pop {t t' : Talker M} {x : Slip M} {accepted : Option Nat} (popped : t.pop x accepted = some t') :
    ∃ removed, t.queue.contents = removed :: t'.queue.contents ∧ t'.tickets = t.tickets ∧
      t'.log = t.log ++ [.popped removed x accepted] := by
  obtain ⟨removed, queue, next, pop, rfl⟩ := Talker.pop_spec popped
  cases held : t.queue.contents with
  | nil =>
    rw [TalkerQueue.next_eq, held] at next
    cases next
  | cons y rest =>
    obtain ⟨queue', pop', left⟩ := TalkerQueue.pop_contents held
    obtain rfl : queue' = queue := Option.some.inj (pop'.symm.trans pop)
    rw [TalkerQueue.next_eq, held] at next
    obtain rfl : y = removed := Option.some.inj next
    exact ⟨y, by rw [left], rfl, rfl⟩

theorem unsent_pop {t t' : Talker M} {x : Slip M} {accepted : Option Nat} (h : Unsent t (.handled x accepted))
    (popped : t.pop x accepted = some t') : Unsent t' .away := by
  obtain ⟨removed, held, tickets, log⟩ := contents_pop popped
  obtain ⟨nodup, front, unsent, handled, known⟩ := h
  rw [held] at nodup front unsent known
  have sent_iff (session : Nat) (y : Slip M) : .sent session y ∈ t'.log ↔ .sent session y ∈ t.log := by
    simp [log]
  have first : t.queue.next = some removed := by rw [TalkerQueue.next_eq, held]; rfl
  refine ⟨(List.nodup_cons.mp nodup).2, nofun, fun y member session sent => ?_, nofun, fun y member => ?_⟩
  · obtain ⟨accepted', same⟩ := unsent y (List.mem_cons_of_mem _ member) session ((sent_iff session y).mp sent)
    cases same
    rcases front x rfl with next | gone
    · rw [first] at next
      cases next
      exact absurd member (List.nodup_cons.mp nodup).1
    · exact absurd (List.mem_cons_of_mem _ member) gone
  · rw [tickets]
    rcases member with member | ⟨session, sent⟩ | taken
    · exact known y (.inl (List.mem_cons_of_mem _ member))
    · exact known y (.inr (.inl ⟨session, (sent_iff session y).mp sent⟩))
    · cases taken

/-- A push appends, and drops from the stored messages. -/
theorem contents_push (t : TalkerQueue M) (msg : M) : ∃ dropped,
    t.contents ++ [msg] = (if t.head_popped then [] else [t.head_msg]) ++ dropped ++ (t.push msg).q ∧
      (t.push msg).contents = (if t.head_popped then [] else [t.head_msg]) ++ (t.push msg).q := by
  refine ⟨overflow t.capacity (t.q ++ [msg]), ?_, rfl⟩
  rw [List.append_assoc, TalkerQueue.contents, TalkerQueue.push, overflow_append_shrink, List.append_assoc]

theorem front_push {t : TalkerQueue M} {x msg : M} (whole : (t.contents ++ [msg]).Nodup)
    (next : t.next = some x) : (t.push msg).next = some x ∨ x ∉ (t.push msg).contents := by
  obtain ⟨dropped, split, held⟩ := contents_push t msg
  have popped : (t.push msg).head_popped = t.head_popped := rfl
  cases pending : t.head_popped with
  | false =>
    refine .inl ?_
    simpa [TalkerQueue.next, TalkerQueue.push, pending] using next
  | true =>
    rw [TalkerQueue.next_eq] at next ⊢
    obtain ⟨rest, contents⟩ := List.head?_eq_some_iff.mp next
    rw [pending, if_pos rfl, List.nil_append] at held split
    rw [held]
    rw [split] at whole
    rw [contents] at split
    cases dropped with
    | nil =>
      refine .inl ?_
      rw [← List.nil_append (t.push msg).q, ← split]
      rfl
    | cons y ys =>
      obtain ⟨rfl, -⟩ := List.cons.inj split
      rw [List.cons_append, List.nodup_cons] at whole
      exact .inr fun member => whole.1 (List.mem_append_right _ member)

theorem sent_push {t : Talker M} {origin : Nat → Origin} {msg : M} {session : Nat} {x : Slip M} :
    .sent session x ∈ (t.push origin msg).log ↔ .sent session x ∈ t.log := by
  simp [Talker.push]

theorem new_before {origin : Nat → Origin} (pushes : origin = .pushed ∨ origin = .withdrawal) (n : Nat)
    (msg : M) : (⟨origin n, msg⟩ : Slip M).before (n + 1) := by
  rcases pushes with rfl | rfl <;> exact .inr (Nat.lt_succ_self n)

theorem unsent_push {t : Talker M} {hold : Hold M} (h : Unsent t hold) {origin : Nat → Origin}
    (pushes : origin = .pushed ∨ origin = .withdrawal) (msg : M) : Unsent (t.push origin msg) hold := by
  let z : Slip M := ⟨origin t.tickets, msg⟩
  have new : ¬ z.before t.tickets := not_before_new pushes _ _
  obtain ⟨dropped, split, held⟩ := contents_push t.queue z
  have contents : (t.push origin msg).queue.contents = (t.queue.push z).contents := rfl
  have whole : (t.queue.contents ++ [z]).Nodup :=
    List.nodup_append'.mpr ⟨h.nodup, List.nodup_singleton z, by
      rw [List.disjoint_singleton]
      exact fun member => new (h.known z (.inl member))⟩
  have sub : (t.push origin msg).queue.contents.Sublist (t.queue.contents ++ [z]) := by
    rw [contents, held, split, List.append_assoc]
    exact (List.sublist_append_right dropped _).append_left _
  have old {x : Slip M} (member : x ∈ (t.push origin msg).queue.contents) : x ∈ t.queue.contents ∨ x = z := by
    simpa using sub.subset member
  refine ⟨whole.sublist sub, fun x taken => ?_, fun x member session sent => ?_, fun x accepted handled => ?_,
    fun x member => ?_⟩
  · rcases h.front x taken with next | gone
    · exact front_push whole next
    · refine .inr fun member => ?_
      rcases old member with member | rfl
      · exact gone member
      · exact new (h.known z (.inr (.inr taken)))
  · rw [sent_push] at sent
    rcases old member with member | rfl
    · exact h.unsent x member session sent
    · exact absurd (h.known z (.inr (.inl ⟨session, sent⟩))) new
  · obtain ⟨session, sent⟩ := h.handled x accepted handled
    exact ⟨session, sent_push.mpr sent⟩
  · rcases member with member | ⟨session, sent⟩ | taken
    · rcases old member with member | rfl
      · exact Slip.before_succ (h.known x (.inl member))
      · exact new_before pushes _ _
    · exact Slip.before_succ (h.known x (.inr (.inl ⟨session, sent_push.mp sent⟩)))
    · exact Slip.before_succ (h.known x (.inr (.inr taken)))

theorem unsent_passes {i : Nat} {t t' : Talker M} {pc pc' : Pc M} (h : Unsent t (pc.hold i))
    (passes : Passes i t pc pc' t') : Unsent t' (pc'.hold i) := by
  cases passes with
  | begins => exact h
  | ends j beyond => exact h
  | misses j beyond => exact h
  | visits j => exact h
  | skips j empty => exact h
  | finds j =>
    refine unsent_moves h (by simp [Pc.hold]) ?_ ?_ <;> by_cases same : j = i <;> simp [Pc.hold, same]
  | reads j x front =>
    refine unsent_moves h ?_ ?_ ?_ <;> by_cases same : j = i <;> simp [Pc.hold, same]
    exact front same
  | checks j x =>
    refine unsent_moves h ?_ ?_ ?_ <;> by_cases same : j = i <;> simp [Pc.hold, same]
  | sends x session =>
    simp only [Pc.hold, ↓reduceIte] at h ⊢
    exact unsent_transmit h session
  | sends_other j other x accepted =>
    simp only [Pc.hold, if_neg other] at h ⊢
    exact h
  | pops x accepted t' popped =>
    simp only [Pc.hold, ↓reduceIte] at h ⊢
    exact unsent_pop h popped
  | pops_other j other x accepted =>
    simp only [Pc.hold, if_neg other] at h ⊢
    exact h
  | stuck pc empty =>
    by_cases held : (pc.hold i).taken = none
    · apply unsent_moves h
      · intro x accepted same
        rw [same] at held
        cases held
      · intro x accepted same
        cases same
      · intro x taken
        cases taken
    · have empty := empty held
      refine ⟨h.nodup, fun x taken => ?_, fun x member => ?_, fun x accepted same => ?_, fun x member => ?_⟩
      · cases taken
      · rw [empty] at member
        cases member
      · cases same
      · rcases member with member | sent | taken
        · exact h.known x (.inl member)
        · exact h.known x (.inr (.inl sent))
        · cases taken

/-! ### What a pass sends -/

/-- What the pass under way has still to send from queue `i`, at most. -/
def Pc.owes (i : Nat) : Pc M → Nat
  | .active j => if j ≤ i then 1 else 0
  | .empty j => if j ≤ i then 1 else 0
  | .next j => if j ≤ i then 1 else 0
  | .send j _ => if j ≤ i then 1 else 0
  | .message_sender j _ => if j ≤ i then 1 else 0
  | .pop j _ _ => if j < i then 1 else 0
  | .idle => 0
  | .undefined => 0

def unsent (t : Talker M) : Hold M → Nat
  | .handled _ _ => t.queue.contents.length - 1
  | _ => t.queue.contents.length

/-- A pass sends one message from each queue, and from a queue that has none it sends nothing. -/
theorem unsent_turn {i : Nat} {t t' : Talker M} {pc pc' : Pc M} (passes : Passes i t pc pc' t')
    (busy : pc ≠ .idle) (defined : pc' ≠ .undefined) :
    pc.owes i = pc'.owes i ∧ unsent t' (pc'.hold i) = unsent t (pc.hold i) ∨
      pc.owes i = pc'.owes i + 1 ∧ unsent t' (pc'.hold i) = unsent t (pc.hold i) - 1 := by
  cases passes with
  | begins => exact absurd rfl busy
  | ends j beyond => exact .inl ⟨if_neg (by omega), rfl⟩
  | misses j beyond => exact .inl ⟨if_neg (by omega), rfl⟩
  | visits j => exact .inl ⟨rfl, rfl⟩
  | skips j empty =>
    rcases Nat.lt_trichotomy j i with earlier | rfl | later
    · refine .inl ⟨?_, rfl⟩
      simp only [Pc.owes]
      rw [if_pos (by omega), if_pos (by omega)]
    · refine .inr ⟨?_, ?_⟩
      · simp [Pc.owes]
      · simp [unsent, Pc.hold, empty rfl]
    · refine .inl ⟨?_, rfl⟩
      simp only [Pc.owes]
      rw [if_neg (by omega), if_neg (by omega)]
  | finds j => exact .inl ⟨rfl, by by_cases same : j = i <;> simp [Pc.hold, same, unsent]⟩
  | reads j x front => exact .inl ⟨rfl, by by_cases same : j = i <;> simp [Pc.hold, same, unsent]⟩
  | checks j x => exact .inl ⟨rfl, by by_cases same : j = i <;> simp [Pc.hold, same, unsent]⟩
  | sends x session => exact .inr ⟨by simp [Pc.owes], by simp [Pc.hold, unsent, Talker.transmit]⟩
  | sends_other j other x accepted =>
    refine .inl ⟨?_, by simp [Pc.hold, other]⟩
    simp only [Pc.owes]
    by_cases earlier : j < i
    · rw [if_pos (by omega), if_pos earlier]
    · rw [if_neg (by omega), if_neg earlier]
  | pops x accepted t' popped =>
    obtain ⟨removed, held, -, -⟩ := contents_pop popped
    exact .inl ⟨by simp [Pc.owes], by simp [Pc.hold, unsent, held]⟩
  | pops_other j other x accepted =>
    refine .inl ⟨?_, by simp [Pc.hold, other]⟩
    simp only [Pc.owes]
    by_cases earlier : j < i
    · rw [if_pos earlier, if_pos (by omega)]
    · rw [if_neg earlier, if_neg (by omega)]
  | stuck pc empty => exact absurd rfl defined

structure Matched (C : List (Slip M)) (t : Talker M) (hold : Hold M) : Prop where
  front : ∀ x y, hold.taken = some x → t.queue.next = some y → y = x
  sent : ∃ m, t.queue.contents = C.drop m ∧ ∀ x ∈ C.take m, ∃ session, .sent session x ∈ t.log

theorem Matched.goes {C : List (Slip M)} {t : Talker M} {hold hold' : Hold M} (h : Matched C t hold)
    (takes : ∀ x, hold'.taken = some x → hold.taken = some x ∨ t.queue.next = some x) :
    Matched C t hold' where
  front x y taken next := by
    rcases takes x taken with same | front
    · exact h.front x y same next
    · exact Option.some.inj (next.symm.trans front)
  sent := h.sent

theorem matched_passes {C : List (Slip M)} {i : Nat} {t t' : Talker M} {pc pc' : Pc M}
    (unsent : Unsent t (pc.hold i)) (h : Matched C t (pc.hold i)) (passes : Passes i t pc pc' t') :
    Matched C t' (pc'.hold i) := by
  cases passes with
  | begins => exact h
  | ends j beyond => exact h
  | misses j beyond => exact h
  | visits j => exact h
  | skips j empty => exact h
  | finds j =>
    refine h.goes ?_
    by_cases same : j = i <;> simp [Pc.hold, same]
  | reads j x front =>
    refine h.goes ?_
    by_cases same : j = i <;> simp [Pc.hold, same]
    exact front same
  | checks j x =>
    refine h.goes ?_
    by_cases same : j = i <;> simp [Pc.hold, same]
  | sends x session =>
    obtain ⟨m, held, all⟩ := h.sent
    refine ⟨fun y z taken next => ?_, m, held, fun y member => ?_⟩
    · have taken' : Hold.taken (Pc.hold i (.message_sender i x)) = some y := by simpa [Pc.hold] using taken
      exact h.front y z taken' next
    · obtain ⟨session', sent⟩ := all y member
      exact ⟨session', List.mem_append_left _ sent⟩
  | sends_other j other x accepted =>
    refine h.goes ?_
    simp [Pc.hold, other]
  | pops x accepted t' popped =>
    obtain ⟨removed, held, -, log⟩ := contents_pop popped
    have handled : Pc.hold i (.pop i x accepted) = .handled x accepted := by simp [Pc.hold]
    obtain ⟨m, left, all⟩ := h.sent
    have first : t.queue.next = some removed := by rw [TalkerQueue.next_eq, held]; rfl
    obtain rfl : removed = x := h.front x removed (by rw [handled]; rfl) first
    rw [held] at left
    have inside : C[m]? = some removed := by
      rw [← List.head?_drop, ← left]
      rfl
    refine ⟨fun y z taken => (by simp [Pc.hold] at taken), m + 1, ?_, fun y member => ?_⟩
    · rw [← List.tail_drop, ← left]
      rfl
    · rw [log]
      rw [List.take_add_one, inside, List.mem_append] at member
      rcases member with member | member
      · obtain ⟨session, sent⟩ := all y member
        exact ⟨session, List.mem_append_left _ sent⟩
      · obtain rfl : y = removed := by simpa using member
        obtain ⟨session, sent⟩ := unsent.handled y accepted handled
        exact ⟨session, List.mem_append_left _ sent⟩
  | pops_other j other x accepted =>
    refine h.goes ?_
    simp [Pc.hold, other]
  | stuck pc empty =>
    apply h.goes
    intro x taken
    cases taken

/-- The message is popped in place of another, or has been. -/
structure Lost (y : Slip M) (t : Talker M) (hold : Hold M) : Prop where
  never : ∀ session, .sent session y ∉ t.log
  other : hold.taken ≠ some y
  next : y ∉ t.queue.contents ∨ hold.taken ≠ none ∧ t.queue.next = some y

theorem lost_passes {y : Slip M} {i : Nat} {t t' : Talker M} {pc pc' : Pc M}
    (unsent : Unsent t (pc.hold i)) (h : Lost y t (pc.hold i)) (passes : Passes i t pc pc' t') :
    Lost y t' (pc'.hold i) := by
  obtain ⟨never, other, next⟩ := h
  cases passes with
  | begins => exact ⟨never, other, next⟩
  | ends j beyond => exact ⟨never, other, next⟩
  | misses j beyond => exact ⟨never, other, next⟩
  | visits j => exact ⟨never, other, next⟩
  | skips j empty => exact ⟨never, other, next⟩
  | finds j =>
    have gone : y ∉ t.queue.contents := by simpa [Pc.hold] using next
    refine ⟨never, ?_, .inl gone⟩
    by_cases same : j = i <;> simp [Pc.hold, same]
  | reads j x front =>
    have gone : y ∉ t.queue.contents := by
      by_cases same : j = i <;> simpa [Pc.hold, same] using next
    refine ⟨never, ?_, .inl gone⟩
    by_cases same : j = i
    · have held := front same
      rw [TalkerQueue.next_eq] at held
      simp only [Pc.hold, same, ↓reduceIte, Hold.taken_fetched, ne_eq, Option.some.injEq]
      rintro rfl
      exact gone (List.mem_of_head? held)
    · simp [Pc.hold, same]
  | checks j x =>
    by_cases same : j = i
    · simp only [Pc.hold, same, ↓reduceIte] at other next ⊢
      exact ⟨never, other, next⟩
    · simp only [Pc.hold, same, ↓reduceIte] at other next ⊢
      exact ⟨never, other, next⟩
  | sends x session =>
    simp only [Pc.hold, ↓reduceIte] at other next ⊢
    refine ⟨fun session' sent => ?_, other, next⟩
    have sents : .sent session' y ∈ t.log ++ [.sent session x] := sent
    rw [List.mem_append, List.mem_singleton] at sents
    rcases sents with old | new
    · exact never session' old
    · cases new
      exact other rfl
  | sends_other j different x accepted =>
    simp only [Pc.hold, if_neg different] at other next ⊢
    exact ⟨never, other, next⟩
  | pops x accepted t' popped =>
    obtain ⟨removed, held, -, log⟩ := contents_pop popped
    refine ⟨fun session sent => ?_, fun taken => (by cases taken), .inl ?_⟩
    · rw [log] at sent
      exact never session (by simpa using sent)
    · have nodup := unsent.nodup
      rw [held] at next nodup
      rcases next with gone | ⟨-, front⟩
      · exact fun member => gone (List.mem_cons_of_mem _ member)
      · rw [TalkerQueue.next_eq, held] at front
        obtain rfl : removed = y := Option.some.inj front
        exact (List.nodup_cons.mp nodup).1
  | pops_other j different x accepted =>
    simp only [Pc.hold, if_neg different] at other next ⊢
    exact ⟨never, other, next⟩
  | stuck pc empty =>
    refine ⟨never, fun taken => (by cases taken), .inl ?_⟩
    rcases next with gone | ⟨taken, -⟩
    · exact gone
    · rw [empty taken]
      exact List.not_mem_nil

/-! ### The system -/

structure Steady (s : State M) : Prop where
  opened : s.link.phase = .opened
  calm : s.resetTalkers = none
  unsent : ∀ i t, s.talkers[i]? = some t → Unsent t (s.pc.hold i)

theorem talk_keeps (s : State M) (accepts : Bool) :
    (talk s accepts).resetTalkers = s.resetTalkers ∧ (talk s accepts).talkers.length = s.talkers.length := by
  unfold talk
  cases s.pc with
  | message_sender i x => exact ⟨rfl, List.length_modify ..⟩
  | pop i x accepted =>
    dsimp only
    split
    · exact ⟨rfl, rfl⟩
    · exact ⟨rfl, List.length_set⟩
  | active i =>
    dsimp only
    split <;> exact ⟨rfl, rfl⟩
  | empty i =>
    dsimp only
    split
    · exact ⟨rfl, rfl⟩
    · split <;> exact ⟨rfl, rfl⟩
  | next i =>
    dsimp only
    split <;> exact ⟨rfl, rfl⟩
  | send i x =>
    dsimp only
    split <;> exact ⟨rfl, rfl⟩
  | _ => exact ⟨rfl, rfl⟩

theorem steady_talk {s : State M} (h : Steady s) : Steady (talk s true) where
  opened := by
    rw [talk_link]
    exact h.opened
  calm := (talk_keeps s true).1.trans h.calm
  unsent i t' there := by
    have inside : i < s.talkers.length := by
      rw [← (talk_keeps s true).2]
      exact (List.getElem?_eq_some_iff.mp there).1
    obtain ⟨t'', found, passes⟩ := talk_passes h.opened (List.getElem?_eq_getElem inside)
    obtain rfl : t'' = t' := Option.some.inj (found.symm.trans there)
    exact unsent_passes (h.unsent i _ (List.getElem?_eq_getElem inside)) passes

/-- What a producer does to one queue. -/
theorem steady_modify {s : State M} (h : Steady s) (j : Nat) {f : Talker M → Talker M}
    (keeps : ∀ t hold, Unsent t hold → Unsent (f t) hold) : Steady { s with talkers := s.talkers.modify j f } where
  opened := h.opened
  calm := h.calm
  unsent i t' there := by
    dsimp only at there
    rw [List.getElem?_modify] at there
    obtain ⟨t, found, rfl⟩ := Option.map_eq_some_iff.mp there
    split
    · exact keeps t _ (h.unsent i t found)
    · exact h.unsent i t found

theorem steady_attach {s : State M} (h : Steady s) (queue_size : Int32) (head_msg : M) :
    Steady (attach s (.new queue_size head_msg)) := by
  unfold attach
  split
  · rename_i idle calm
    refine ⟨h.opened, h.calm, fun i t there => ?_⟩
    dsimp only at there
    rcases Nat.lt_or_ge i s.talkers.length with inside | beyond
    · rw [List.getElem?_append_left inside] at there
      exact h.unsent i t there
    · rw [List.getElem?_append_right beyond, List.getElem?_singleton] at there
      split at there
      · obtain rfl := Option.some.inj there
        simpa [idle, Pc.hold] using unsent_new queue_size head_msg
      · cases there
  · exact h

theorem steady_step {s : State M} (h : Steady s) {e : Event M} (calm : Calm e ∨ e = .resetTalkers) :
    Steady (step s e) := by
  cases e with
  | attach queue_size head_msg => exact steady_attach h queue_size head_msg
  | push i msg => exact steady_modify h i fun t hold unsent => unsent_push unsent (.inl rfl) msg
  | destroy i msg => exact steady_modify h i fun t hold unsent => unsent_push unsent (.inr rfl) msg
  | abandon i =>
    refine steady_modify h i fun t hold unsent => ?_
    exact ⟨unsent.nodup, unsent.front, unsent.unsent, unsent.handled, unsent.known⟩
  | talk accepts =>
    rcases calm with rfl | same
    · exact steady_talk h
    · cases same
  | resetTalkers =>
    show Steady (resetTalkers s)
    rw [resetTalkers, h.calm]
    exact h
  | link c => rcases calm with calm | same <;> [exact calm.elim; cases same]

theorem steady_start : Steady (start .opened : State M) where
  opened := rfl
  calm := rfl
  unsent i t there := by simp [start] at there

end Rosbridge.Talk
