import Rosbridge.Access
import Rosbridge.Talk.Withdrawal

/-!
# The last word of a queue

A destructor withdraws an endpoint by the last message that it pushes. The withdrawal is the last
word if no message is pushed after it, and if the session that takes it takes nothing after it.
-/

namespace Rosbridge.Talk

variable {M : Type}

def Entry.brings : Entry M → Bool
  | .pushed _ => true
  | _ => false

def Entry.bringsWithdrawal : Entry M → Bool
  | .pushed x => x.isWithdrawal
  | _ => false

def Entry.session? : Entry M → Option Nat
  | .sent session _ => some session
  | _ => none

def Entry.withdrawnIn? : Entry M → Option Nat
  | .sent session x => if x.isWithdrawal then some session else none
  | _ => none

def Announced (log : List (Entry M)) : Bool := log.any Entry.bringsWithdrawal

def WithdrawnIn (session : Nat) (log : List (Entry M)) : Bool :=
  log.any fun e => e.withdrawnIn? = some session

/-- No message is pushed after a withdrawal. -/
def Silent (log : List (Entry M)) : Prop :=
  log.Pairwise fun before after => before.bringsWithdrawal = true → after.brings = false

/-- No message is transmitted after a withdrawal in the same session. -/
def Final (log : List (Entry M)) : Prop :=
  log.Pairwise fun before after =>
    before.withdrawnIn?.isSome = true → after.session? ≠ before.withdrawnIn?

/-- The withdrawal was transmitted, or it is the last message in the queue. -/
def Kept (t : Talker M) : Prop :=
  Withdrawn t.log = true ∨ t.queue.q.getLast?.any Slip.isWithdrawal = true

instance (log : List (Entry M)) : Decidable (Silent log) := by unfold Silent; infer_instance
instance (log : List (Entry M)) : Decidable (Final log) := by unfold Final; infer_instance
instance (t : Talker M) : Decidable (Kept t) := by unfold Kept; infer_instance

/-! ### The log -/

theorem announced_append (log new : List (Entry M)) :
    Announced (log ++ new) = (Announced log || Announced new) := List.any_append

theorem withdrawnIn_append (session : Nat) (log new : List (Entry M)) :
    WithdrawnIn session (log ++ new) = (WithdrawnIn session log || WithdrawnIn session new) :=
  List.any_append

theorem announced_of_mem {log : List (Entry M)} {x : Slip M} (pushed : .pushed x ∈ log)
    (withdrawal : x.isWithdrawal = true) : Announced log = true :=
  List.any_eq_true.mpr ⟨_, pushed, withdrawal⟩

theorem withdrawnIn_eq_true {session : Nat} {log : List (Entry M)} :
    WithdrawnIn session log = true ↔ ∃ x, .sent session x ∈ log ∧ x.isWithdrawal = true := by
  rw [WithdrawnIn, List.any_eq_true]
  constructor
  · rintro ⟨e, member, taken⟩
    cases e with
    | sent k x =>
      obtain ⟨withdrawal, rfl⟩ : x.isWithdrawal = true ∧ k = session := by
        simpa [Entry.withdrawnIn?] using taken
      exact ⟨x, member, withdrawal⟩
    | _ => simp [Entry.withdrawnIn?] at taken
  · rintro ⟨x, member, withdrawal⟩
    exact ⟨_, member, by simp [Entry.withdrawnIn?, withdrawal]⟩

@[simp] theorem withdrawnIn_push (session : Nat) (t : Talker M) (origin : Nat → Origin) (msg : M) :
    WithdrawnIn session (t.push origin msg).log = WithdrawnIn session t.log := by
  rw [Talker.push, withdrawnIn_append]
  simp [WithdrawnIn, Entry.withdrawnIn?]

@[simp] theorem withdrawnIn_popped (session : Nat) (log : List (Entry M)) (removed taken : Slip M)
    (accepted : Option Nat) :
    WithdrawnIn session (log ++ [.popped removed taken accepted]) = WithdrawnIn session log := by
  rw [withdrawnIn_append]
  simp [WithdrawnIn, Entry.withdrawnIn?]

theorem Silent.append {log new : List (Entry M)} (h : Silent log)
    (quiet : ∀ e ∈ new, e.brings = false) : Silent (log ++ new) :=
  pairwise_append_of_forall h fun e member _ _ => quiet e member

theorem Silent.push {t : Talker M} (h : Silent t.log) (origin : Nat → Origin) (msg : M)
    (fresh : Announced t.log = false) : Silent (t.push origin msg).log := by
  refine List.pairwise_append.mpr ⟨h, List.pairwise_cons.mpr ⟨?_, ?_⟩, fun before member after _ => ?_⟩
  · simp [Entry.brings]
  · exact List.pairwise_map.mpr (List.pairwise_of_forall_mem_list fun _ _ _ _ => by simp [Entry.brings])
  · have quiet := List.any_eq_false.mp fresh before member
    exact fun brings => absurd brings quiet

theorem Final.append {log new : List (Entry M)} (h : Final log)
    (quiet : ∀ e ∈ new, e.session? = none) : Final (log ++ new) := by
  refine pairwise_append_of_forall h fun e member before taken same => ?_
  rw [quiet e member] at same
  simp [← same] at taken

theorem Final.concat {log : List (Entry M)} (h : Final log) {session : Nat} (x : Slip M)
    (unspent : WithdrawnIn session log = false) : Final (log ++ [.sent session x]) := by
  refine List.pairwise_append.mpr ⟨h, List.pairwise_singleton _ _, fun before member after last => ?_⟩
  rw [List.mem_singleton.mp last]
  intro taken same
  have spent : WithdrawnIn session log = true :=
    List.any_eq_true.mpr ⟨before, member, by simpa [Entry.session?] using same.symm⟩
  rw [spent] at unspent
  cases unspent

/-! ### The queue and `talk` -/

def Hold.withdrawing : Hold M → Bool
  | .fetched x => x.isWithdrawal
  | .checked x => x.isWithdrawal
  | _ => false

/-- A withdrawal is the last message of its queue, and when `talk` holds it, the only one. A session
that has taken it has nothing more to take. -/
structure Closing (l : Lane M) : Prop where
  head : l.talker.queue.head_msg.isWithdrawal = false
  last : ∀ x ∈ l.talker.queue.q.dropLast, x.isWithdrawal = false
  queued : ∀ x ∈ l.talker.queue.q, x.isWithdrawal = true → .pushed x ∈ l.talker.log
  held : ∀ x, l.hold.taken = some x → x.isWithdrawal = true → .pushed x ∈ l.talker.log
  sent : ∀ session x, .sent session x ∈ l.talker.log → x.isWithdrawal = true → .pushed x ∈ l.talker.log
  bare : l.hold.withdrawing = true →
    l.talker.queue.head_popped = true ∧ l.talker.queue.q.tail = []
  spent : WithdrawnIn l.link.session l.talker.log = true → l.talker.queue.head_popped = true ∧
    (l.hold = .away ∧ l.talker.queue.q = [] ∨
      ∃ x accepted, l.hold = .handled x accepted ∧ l.talker.queue.q.tail = [])
  past : ∀ session x, .sent session x ∈ l.talker.log → session ≤ l.link.session
  silent : Silent l.talker.log
  final : Final l.talker.log

def Closing.Allowed (l : Lane M) : LaneEvent M → Prop
  | .push _ _ => Announced l.talker.log = false
  | .empty => l.talker.queue.empty = false
  | .reset => WithdrawnIn l.link.session l.talker.log = false ∧ l.hold.withdrawing = false
  | _ => True

theorem withdrawn_head_is_last {q : List (Slip M)} {x : Slip M}
    (last : ∀ y ∈ q.dropLast, y.isWithdrawal = false) (front : q.head? = some x)
    (withdrawal : x.isWithdrawal = true) : q.tail = [] := by
  obtain ⟨rest, rfl⟩ := List.head?_eq_some_iff.mp front
  cases rest with
  | nil => rfl
  | cons y rest =>
    have first := last x List.mem_cons_self
    rw [withdrawal] at first
    cases first

theorem Closing.unspent {l : Lane M} (h : Closing l) (held : l.hold ≠ .away)
    (sending : ∀ x accepted, l.hold ≠ .handled x accepted) :
    WithdrawnIn l.link.session l.talker.log = false := by
  by_contra taken
  obtain ⟨-, ⟨away, -⟩ | ⟨x, accepted, handled, -⟩⟩ := h.spent (by simpa using taken)
  · exact held away
  · exact sending x accepted handled

theorem Closing.fresh_queue {l : Lane M} (h : Closing l) (fresh : Announced l.talker.log = false) :
    (∀ x ∈ l.talker.queue.q, x.isWithdrawal = false) ∧
      (∀ x, l.hold.taken = some x → x.isWithdrawal = false) ∧
      ∀ session, WithdrawnIn session l.talker.log = false := by
  have unknown (x : Slip M) (pushed : x.isWithdrawal = true → .pushed x ∈ l.talker.log) :
      x.isWithdrawal = false := by
    by_contra withdrawal
    have isWithdrawal : x.isWithdrawal = true := by simpa using withdrawal
    rw [announced_of_mem (pushed isWithdrawal) isWithdrawal] at fresh
    cases fresh
  refine ⟨fun x member => unknown x (h.queued x member), fun x taken => unknown x (h.held x taken),
    fun session => ?_⟩
  by_contra taken
  obtain ⟨x, member, withdrawal⟩ := withdrawnIn_eq_true.mp (by simpa using taken)
  rw [unknown x (h.sent session x member)] at withdrawal
  cases withdrawal

theorem closing_fresh (queue_size : Int32) (head_msg : M) (link : Link) :
    Closing (.fresh queue_size head_msg link) where
  head := rfl
  last := by simp [Lane.fresh, Talker.new, TalkerQueue.new]
  queued := by simp [Lane.fresh, Talker.new, TalkerQueue.new]
  held := by simp [Lane.fresh]
  sent := by simp [Lane.fresh, Talker.new]
  bare withdrawing := by cases withdrawing
  spent taken := by cases taken
  past := by simp [Lane.fresh, Talker.new]
  silent := List.Pairwise.nil
  final := List.Pairwise.nil

theorem hold_of_withdrawing {hold : Hold M} (taken : ∀ x, hold.taken = some x → x.isWithdrawal = false) :
    hold.withdrawing = false := by
  cases hold with
  | fetched x => exact taken x rfl
  | checked x => exact taken x rfl
  | _ => rfl

theorem mem_dropLast_push {t : TalkerQueue M} {msg x : M} (member : x ∈ (t.push msg).q.dropLast) :
    x ∈ t.q := by
  have suffix : (t.push msg).q <:+ t.q ++ [msg] := by
    rw [TalkerQueue.push_q]
    exact Recent.rtake_suffix _ _
  rcases List.suffix_concat_iff.mp suffix with none | ⟨kept, same, older⟩
  · rw [none] at member
    cases member
  · rw [same, List.dropLast_concat] at member
    exact older.subset member

theorem closing_push {l : Lane M} (h : Closing l) (origin : Nat → Origin) (msg : M)
    (fresh : Announced l.talker.log = false) :
    Closing { l with talker := l.talker.push origin msg } := by
  obtain ⟨queued, held, untaken⟩ := h.fresh_queue fresh
  have older {e : Entry M} (member : e ∈ l.talker.log) : e ∈ (l.talker.push origin msg).log :=
    List.mem_append_left _ member
  have sent {session : Nat} {x : Slip M} (member : .sent session x ∈ (l.talker.push origin msg).log) :
      .sent session x ∈ l.talker.log := by
    simpa [Talker.push] using member
  refine ⟨h.head, fun x member => queued x (mem_dropLast_push member), fun x member withdrawal => ?_,
    fun x taken withdrawal => older (h.held x taken withdrawal),
    fun session x member withdrawal => older (h.sent session x (sent member) withdrawal), ?_, ?_,
    fun session x member => h.past session x (sent member), h.silent.push origin msg fresh,
    h.final.append (by simp [Entry.session?])⟩
  · rcases TalkerQueue.mem_push_q member with old | rfl
    · exact older (h.queued x old withdrawal)
    · exact List.mem_append_right _ List.mem_cons_self
  · intro withdrawing
    rw [hold_of_withdrawing held] at withdrawing
    cases withdrawing
  · intro taken
    rw [show WithdrawnIn l.link.session (l.talker.push origin msg).log = false by
      rw [withdrawnIn_push, untaken]] at taken
    cases taken

/-- A step of `talk` that only moves on. -/
theorem closing_moves {l : Lane M} (h : Closing l) {hold : Hold M}
    (held : ∀ x, hold.taken = some x → x.isWithdrawal = true → .pushed x ∈ l.talker.log)
    (bare : hold.withdrawing = true →
      l.talker.queue.head_popped = true ∧ l.talker.queue.q.tail = [])
    (unspent : WithdrawnIn l.link.session l.talker.log = false) : Closing { l with hold := hold } where
  head := h.head
  last := h.last
  queued := h.queued
  held := held
  sent := h.sent
  bare := bare
  spent taken := by
    rw [show WithdrawnIn l.link.session l.talker.log = true from taken] at unspent
    cases unspent
  past := h.past
  silent := h.silent
  final := h.final

theorem closing_next {l : Lane M} (h : Closing l) (ready : l.hold = .ready) : Closing (l.step .next) := by
  have unspent := h.unspent (by simp [ready]) (by simp [ready])
  rcases l.next_cases with ⟨-, away⟩ | ⟨x, next, fetched⟩
  · rw [away]
    exact closing_moves h (by simp) (fun withdrawing => by cases withdrawing) unspent
  · rw [fetched]
    refine closing_moves h ?_ (fun withdrawal => ?_) unspent
    · rintro y ⟨⟩ withdrawal
      rcases TalkerQueue.next_cases next with ⟨-, rfl⟩ | ⟨-, front⟩
      · rw [h.head] at withdrawal
        cases withdrawal
      · exact h.queued x (List.mem_of_head? front) withdrawal
    · have isWithdrawal : x.isWithdrawal = true := withdrawal
      rcases TalkerQueue.next_cases next with ⟨-, rfl⟩ | ⟨isPopped, front⟩
      · rw [h.head] at isWithdrawal
        cases isWithdrawal
      · exact ⟨isPopped, withdrawn_head_is_last h.last front isWithdrawal⟩

/-- A message that `talk` does not transmit. -/
theorem closing_dropped {l : Lane M} {x : Slip M} (h : Closing l)
    (unsent : l.hold = .fetched x ∨ l.hold = .checked x) : Closing { l with hold := .handled x none } := by
  have held : l.hold.taken = some x := by
    rcases unsent with hold | hold
    · rw [hold]
      rfl
    · rw [hold]
      rfl
  have unspent : WithdrawnIn l.link.session l.talker.log = false := by
    rcases unsent with hold | hold
    · exact h.unspent (by simp [hold]) (by simp [hold])
    · exact h.unspent (by simp [hold]) (by simp [hold])
  refine closing_moves h ?_ (fun withdrawing => by cases withdrawing) unspent
  rintro y ⟨⟩ withdrawal
  exact h.held x held withdrawal

theorem closing_reset {l : Lane M} (h : Closing l)
    (unspent : WithdrawnIn l.link.session l.talker.log = false) (idle : l.hold.withdrawing = false) :
    Closing (l.step .reset) := by
  refine ⟨h.head, h.last, h.queued, h.held, h.sent, fun withdrawing => ?_, fun taken => ?_, h.past,
    h.silent, h.final⟩
  · rw [show l.hold.withdrawing = true from withdrawing] at idle
    cases idle
  · rw [show WithdrawnIn l.link.session l.talker.log = true from taken] at unspent
    cases unspent

theorem closing_transmit {l : Lane M} {x : Slip M} (h : Closing l) (hold : l.hold = .checked x) :
    Closing { l with
      talker := { l.talker with log := l.talker.log ++ [.sent l.link.session x] },
      hold := .handled x (some l.link.session) } := by
  have unspent := h.unspent (by simp [hold]) (by simp [hold])
  have held : x.isWithdrawal = true → .pushed x ∈ l.talker.log := h.held x (by rw [hold]; rfl)
  refine ⟨h.head, h.last, fun y member withdrawal => List.mem_append_left _ (h.queued y member withdrawal),
    ?_, fun session y member withdrawal => ?_, fun withdrawing => ?_, fun taken => ?_,
    fun session y member => ?_, h.silent.append (by simp [Entry.brings]), h.final.concat x unspent⟩
  · rintro y ⟨⟩ withdrawal
    exact List.mem_append_left _ (held withdrawal)
  · rcases List.mem_append.mp member with old | new
    · exact List.mem_append_left _ (h.sent session y old withdrawal)
    · obtain ⟨rfl, rfl⟩ : session = l.link.session ∧ y = x := by simpa using new
      exact List.mem_append_left _ (held withdrawal)
  · cases withdrawing
  · rw [withdrawnIn_append, unspent, Bool.false_or] at taken
    have withdrawal : x.isWithdrawal = true := by
      simpa [WithdrawnIn, Entry.withdrawnIn?] using taken
    obtain ⟨isPopped, alone⟩ := h.bare (by rw [hold]; exact withdrawal)
    exact ⟨isPopped, .inr ⟨x, _, rfl, alone⟩⟩
  · rcases List.mem_append.mp member with old | new
    · exact h.past session y old
    · obtain ⟨rfl, -⟩ : session = l.link.session ∧ y = x := by simpa using new
      exact Nat.le_refl _

theorem pop_of_stocked {l : Lane M} (stocked : Stocked l) :
    l.step .pop = l ∨ ∃ removed taken accepted queue, l.hold = .handled taken accepted ∧
      l.talker.queue.pop = some queue ∧ l.step .pop = { l with
        talker := { l.talker with
          queue := queue, log := l.talker.log ++ [.popped removed taken accepted] },
        hold := .away } := by
  cases hold : l.hold with
  | handled taken accepted =>
    obtain ⟨removed, next⟩ := TalkerQueue.next_of_empty (stocked.stocked (by simp [hold]))
    obtain ⟨queue, pop⟩ := TalkerQueue.pop_of_next next
    exact .inr ⟨removed, taken, accepted, queue, rfl, pop, by simp [Lane.step, hold, Talker.pop, next, pop]⟩
  | _ => exact .inl (by simp [Lane.step, hold])

theorem closing_pop {l : Lane M} {removed taken : Slip M} {accepted : Option Nat}
    {queue : TalkerQueue (Slip M)} (h : Closing l) (hold : l.hold = .handled taken accepted)
    (popped : l.talker.queue.pop = some queue) :
    Closing { l with
      talker := { l.talker with
        queue := queue, log := l.talker.log ++ [.popped removed taken accepted] },
      hold := .away } := by
  obtain ⟨head_msg, subset, isPopped⟩ := TalkerQueue.pop_keeps popped
  have older {e : Entry M} (member : e ∈ l.talker.log) :
      e ∈ l.talker.log ++ [.popped removed taken accepted] := List.mem_append_left _ member
  have sent {session : Nat} {x : Slip M}
      (member : .sent session x ∈ l.talker.log ++ [.popped removed taken accepted]) :
      .sent session x ∈ l.talker.log := by
    simpa using member
  have shorter : queue.q = l.talker.queue.q ∧ l.talker.queue.head_popped = false ∨
      queue.q = l.talker.queue.q.tail := by
    rcases TalkerQueue.pop_cases popped with ⟨pending, rfl⟩ | ⟨-, x, rest, contents, rfl⟩
    · exact .inl ⟨rfl, pending⟩
    · exact .inr (by rw [contents]; rfl)
  refine ⟨by rw [head_msg]; exact h.head, fun x member => ?_,
    fun x member withdrawal => older (h.queued x (subset x member) withdrawal), by simp,
    fun session x member withdrawal => older (h.sent session x (sent member) withdrawal),
    (fun withdrawing => by cases withdrawing), fun spent => ⟨isPopped, .inl ⟨rfl, ?_⟩⟩,
    fun session x member => h.past session x (sent member), h.silent.append (by simp [Entry.brings]),
    h.final.append (by simp [Entry.session?])⟩
  · rcases shorter with ⟨same, -⟩ | same
    · exact h.last x (same ▸ member)
    · refine h.last x ?_
      rw [same] at member
      rw [← List.tail_dropLast] at member
      exact List.mem_of_mem_tail member
  · rw [withdrawnIn_popped] at spent
    obtain ⟨before, ⟨away, -⟩ | ⟨x, accepted', -, alone⟩⟩ := h.spent spent
    · rw [hold] at away
      cases away
    · rcases shorter with ⟨-, pending⟩ | same
      · rw [before] at pending
        cases pending
      · exact same.trans alone

theorem closing_step {l : Lane M} {e : LaneEvent M} (h : Closing l) (stocked : Stocked l)
    (guard : l.Guard e) (ok : Closing.Allowed l e) : Closing (l.step e) := by
  cases e with
  | other => exact h
  | push origin msg => exact closing_push h origin msg ok
  | abandon =>
    exact ⟨h.head, h.last, h.queued, h.held, h.sent, h.bare, h.spent, h.past, h.silent, h.final⟩
  | empty =>
    have away : l.hold = .away := guard
    refine closing_moves h (by simp) (fun withdrawing => by cases withdrawing) ?_
    by_contra taken
    obtain ⟨isPopped, ⟨-, drained⟩ | ⟨x, accepted, handled, -⟩⟩ := h.spent (by simpa using taken)
    · have some_left : l.talker.queue.empty = false := ok
      simp [TalkerQueue.empty, isPopped, drained] at some_left
    · rw [away] at handled
      cases handled
  | next => exact closing_next h guard
  | send =>
    rcases l.send_cases with same | ⟨x, hold, ⟨-, checked⟩ | ⟨-, handled⟩⟩
    · rw [same]
      exact h
    · rw [checked]
      have held := h.held
      have bare := h.bare
      rw [hold] at held bare
      exact closing_moves h held bare (h.unspent (by simp [hold]) (by simp [hold]))
    · rw [handled]
      exact closing_dropped h (.inl hold)
  | message_sender accepts =>
    rcases l.message_sender_cases accepts with same | ⟨x, hold, ⟨-, -, -, sent⟩ | ⟨-, handled⟩⟩
    · rw [same]
      exact h
    · rw [sent]
      exact closing_transmit h hold
    · rw [handled]
      exact closing_dropped h (.inr hold)
  | pop =>
    rcases pop_of_stocked stocked with same | ⟨removed, taken, accepted, queue, hold, pop, popped⟩
    · rw [same]
      exact h
    · rw [popped]
      exact closing_pop h hold pop
  | reset =>
    obtain ⟨unspent, idle⟩ := ok
    exact closing_reset h unspent idle
  | link link =>
    obtain ⟨same, -⟩ : link.session = l.link.session ∧ _ := guard
    refine ⟨h.head, h.last, h.queued, h.held, h.sent, h.bare, ?_, ?_, h.silent, h.final⟩
    · intro taken
      exact h.spent (same ▸ taken)
    · intro session x member
      show session ≤ link.session
      rw [same]
      exact h.past session x member
  | opened =>
    refine ⟨h.head, h.last, h.queued, h.held, h.sent, h.bare, fun taken => ?_, fun session x member => ?_,
      h.silent, h.final⟩
    · -- The new session has taken nothing yet.
      obtain ⟨x, member, -⟩ := withdrawnIn_eq_true.mp taken
      have later := h.past _ x member
      exact absurd later (Nat.not_succ_le_self _)
    · exact Nat.le_succ_of_le (h.past session x member)

/-! ### While the destructor runs -/

/-- The `pop` of a message that `talk` has read leaves the withdrawal in the queue, or takes it off after
a session has taken it. -/
def Leaves (t : Talker M) (taken : Slip M) (accepted : Option Nat) : Bool :=
  !t.queue.head_popped ||
    if taken.isWithdrawal then accepted.isSome || Withdrawn t.log
    else !t.queue.q.head?.any Slip.isWithdrawal

structure Keeping (l : Lane M) : Prop where
  kept : Kept l.talker
  handed : ∀ x session, l.hold = .handled x (some session) → x.isWithdrawal = true →
    Withdrawn l.talker.log = true

def Keeping.Allowed (l : Lane M) : LaneEvent M → Prop
  | .push _ _ => False
  | .pop => ∀ taken accepted, l.hold = .handled taken accepted → Leaves l.talker taken accepted = true
  | _ => True

theorem keeping_push {l : Lane M} (h : Closing l) (msg : M) (fresh : Announced l.talker.log = false)
    (sized : 0 < l.talker.queue.capacity) : Keeping (l.step (.push .withdrawal msg)) where
  kept := by
    refine .inr ?_
    show (l.talker.queue.push _).q.getLast?.any Slip.isWithdrawal = true
    rw [TalkerQueue.push_getLast _ _ sized]
    rfl
  handed x session hold withdrawal := by
    have handled : l.hold = .handled x (some session) := hold
    have held := (h.fresh_queue fresh).2.1 x (by rw [handled]; rfl)
    rw [withdrawal] at held
    cases held

theorem kept_append {t : Talker M} (h : Kept t) (new : List (Entry M)) :
    Kept { t with log := t.log ++ new } := by
  refine h.imp_left fun withdrawn => ?_
  show Withdrawn (t.log ++ new) = true
  rw [withdrawn_append, withdrawn, Bool.true_or]

theorem keeping_pop {l : Lane M} {removed taken : Slip M} {accepted : Option Nat}
    {queue : TalkerQueue (Slip M)} (h : Keeping l) (hold : l.hold = .handled taken accepted)
    (popped : l.talker.queue.pop = some queue) (leaves : Leaves l.talker taken accepted = true) :
    Keeping { l with
      talker := { l.talker with
        queue := queue, log := l.talker.log ++ [.popped removed taken accepted] },
      hold := .away } := by
  refine ⟨?_, by simp⟩
  rcases h.kept with withdrawn | last
  · exact .inl (by rw [withdrawn_popped]; exact withdrawn)
  · rcases TalkerQueue.pop_cases popped with ⟨-, rfl⟩ | ⟨isPopped, x, rest, contents, rfl⟩
    · exact .inr last
    · unfold Leaves at leaves
      rw [isPopped, Bool.not_true, Bool.false_or] at leaves
      split at leaves
      · rename_i withdrawal
        refine .inl ?_
        rw [withdrawn_popped]
        rcases Bool.or_eq_true_iff.mp leaves with sent | withdrawn
        · obtain ⟨session, rfl⟩ := Option.isSome_iff_exists.mp sent
          exact h.handed taken session hold withdrawal
        · exact withdrawn
      · refine .inr ?_
        rw [contents] at last leaves
        cases rest with
        | nil =>
          have withdrawal : x.isWithdrawal = true := by simpa using last
          have other : x.isWithdrawal = false := by simpa using leaves
          rw [withdrawal] at other
          cases other
        | cons y rest => exact last

theorem keeping_step {l : Lane M} {e : LaneEvent M} (h : Keeping l) (stocked : Stocked l)
    (ok : Keeping.Allowed l e) : Keeping (l.step e) := by
  cases e with
  | other => exact h
  | push origin msg => exact ok.elim
  | abandon => exact ⟨h.kept, h.handed⟩
  | empty => exact ⟨h.kept, by simp [Lane.step]⟩
  | next =>
    rcases l.next_cases with ⟨-, away⟩ | ⟨x, -, fetched⟩
    · rw [away]
      exact ⟨h.kept, by simp⟩
    · rw [fetched]
      exact ⟨h.kept, by simp⟩
  | send =>
    rcases l.send_cases with same | ⟨x, -, ⟨-, checked⟩ | ⟨-, handled⟩⟩
    · rw [same]
      exact h
    · rw [checked]
      exact ⟨h.kept, by simp⟩
    · rw [handled]
      exact ⟨h.kept, by simp⟩
  | message_sender accepts =>
    rcases l.message_sender_cases accepts with same | ⟨x, -, ⟨-, -, -, sent⟩ | ⟨-, handled⟩⟩
    · rw [same]
      exact h
    · rw [sent]
      refine ⟨kept_append h.kept _, ?_⟩
      rintro y session ⟨⟩ withdrawal
      rw [withdrawn_append, Bool.or_eq_true]
      exact .inr (by simp [Withdrawn, Entry.sendsWithdrawal, withdrawal])
    · rw [handled]
      exact ⟨h.kept, by simp⟩
  | pop =>
    rcases pop_of_stocked stocked with same | ⟨removed, taken, accepted, queue, hold, pop, popped⟩
    · rw [same]
      exact h
    · rw [popped]
      exact keeping_pop h hold pop (ok taken accepted hold)
  | reset => exact ⟨h.kept, h.handed⟩
  | link link => exact ⟨h.kept, h.handed⟩
  | opened => exact ⟨h.kept, h.handed⟩

/-! ### Steps of the system -/

theorem q_size_step {l : Lane M} {e : LaneEvent M} (quiet : ∀ origin msg, e ≠ .push origin msg) :
    (l.step e).talker.queue.q_size = l.talker.queue.q_size := by
  obtain ⟨queue, new, size, -, -, same⟩ := Lane.talker_cases quiet
  rw [same, size]

theorem announced_push (t : Talker M) (origin : Nat → Origin) (msg : M) :
    Announced (t.push origin msg).log =
      (Announced t.log || Slip.isWithdrawal ⟨origin t.tickets, msg⟩) := by
  have evicted (xs : List (Slip M)) : Announced (xs.map .evicted) = false :=
    List.any_eq_false.mpr (by simp [Entry.bringsWithdrawal])
  rw [Talker.push, announced_append]
  congr 1
  show (Slip.isWithdrawal _ || Announced (List.map .evicted _)) = _
  rw [evicted, Bool.or_false]

theorem announced_step {l : Lane M} {e : LaneEvent M} (quiet : ∀ origin msg, e ≠ .push origin msg) :
    Announced (l.step e).talker.log = Announced l.talker.log := by
  obtain ⟨queue, new, -, -, silent, same⟩ := Lane.talker_cases quiet
  have nothing : Announced new = false := by
    refine List.any_eq_false.mpr fun entry member => ?_
    cases entry with
    | pushed x => exact absurd member (silent x).1
    | _ => simp [Entry.bringsWithdrawal]
  rw [same, announced_append, nothing, Bool.or_false]

theorem mem_pushed_push {t : Talker M} {origin : Nat → Origin} {msg : M} {x : Slip M} :
    .pushed x ∈ (t.push origin msg).log ↔ .pushed x ∈ t.log ∨ x = ⟨origin t.tickets, msg⟩ := by
  simp [Talker.push]

theorem pushed_step {l : Lane M} {e : LaneEvent M} {x : Slip M} (quiet : ∀ origin msg, e ≠ .push origin msg)
    (pushed : .pushed x ∈ (l.step e).talker.log) : .pushed x ∈ l.talker.log := by
  obtain ⟨queue, new, -, -, silent, same⟩ := Lane.talker_cases quiet
  rw [same] at pushed
  exact (List.mem_append.mp pushed).resolve_right (silent x).1

theorem withdrawn_eq_true {log : List (Entry M)} :
    Withdrawn log = true ↔ ∃ session x, .sent session x ∈ log ∧ x.isWithdrawal = true := by
  rw [Withdrawn, List.any_eq_true]
  constructor
  · rintro ⟨e, member, taken⟩
    cases e with
    | sent session x => exact ⟨session, x, member, taken⟩
    | _ => cases taken
  · rintro ⟨session, x, member, withdrawal⟩
    exact ⟨_, member, withdrawal⟩

/-- The handler resets queue `i` in a session that has not taken its withdrawal, while `talk` does not
hold it unsent. -/
def ResetsBefore (i : Nat) (s : State M) : Event M → Prop
  | .resetTalkers => s.resetTalkers = some i →
      s.talkers[i]?.all (fun t => !WithdrawnIn s.link.session t.log) = true ∧
        (s.pc.hold i).withdrawing = false
  | _ => True

/-- When `talk` calls `pop` for a message of queue `i`, that leaves the withdrawal in the queue, or takes
it off after a session has taken it. -/
def PopLeaves (i : Nat) (s : State M) : Event M → Prop
  | .talk _ =>
    match s.pc with
    | .pop j taken accepted => j = i → s.talkers[i]?.all (fun t => Leaves t taken accepted) = true
    | _ => True
  | _ => True

instance (i : Nat) (s : State M) : (e : Event M) → Decidable (ResetsBefore i s e)
  | .resetTalkers => inferInstanceAs (Decidable (s.resetTalkers = some i → _))
  | .attach _ _ | .push _ _ | .destroy _ _ | .abandon _ | .talk _ | .link _ => .isTrue trivial

instance (i : Nat) (s : State M) : (e : Event M) → Decidable (PopLeaves i s e)
  | .talk accepts => by
    unfold PopLeaves
    dsimp only
    generalize s.pc = pc
    rcases pc with _ | _ | _ | _ | _ | _ | ⟨j, taken, accepted⟩ | _ <;> dsimp only <;> infer_instance
  | .attach _ _ | .push _ _ | .destroy _ _ | .abandon _ | .resetTalkers | .link _ => .isTrue trivial

theorem closing_allowed {i : Nat} {s : State M} {l : Lane M} {e : Event M} (here : lane i s = some l)
    (fresh : ∀ origin msg, label i s e = .push origin msg → Announced l.talker.log = false)
    (before : ResetsBefore i s e) : Closing.Allowed l (label i s e) := by
  obtain ⟨found, hold, link, -⟩ := lane_eq_some here
  cases seen : label i s e with
  | push origin msg => exact fresh origin msg seen
  | empty => exact label_empty here seen
  | reset =>
    have sees := label_sees here e
    rw [seen] at sees
    cases sees with
    | reset current pending =>
      obtain ⟨unspent, idle⟩ := before current
      rw [found, link] at unspent
      rw [hold] at idle
      exact ⟨by simpa using unspent, idle⟩
  | _ => trivial

theorem keeping_allowed {i : Nat} {s : State M} {l : Lane M} {e : Event M} (here : lane i s = some l)
    (quiet : ∀ origin msg, label i s e ≠ .push origin msg) (leaves : PopLeaves i s e) :
    Keeping.Allowed l (label i s e) := by
  obtain ⟨found, -, -, -⟩ := lane_eq_some here
  cases seen : label i s e with
  | push origin msg => exact absurd seen (quiet origin msg)
  | pop =>
    have sees := label_sees here e
    rw [seen] at sees
    cases sees with
    | pop accepts x accepted pc handled =>
      intro taken accepted' hold
      rw [handled] at hold
      cases hold
      simp only [PopLeaves, pc, found] at leaves
      simpa using leaves trivial
  | _ => trivial

end Rosbridge.Talk
