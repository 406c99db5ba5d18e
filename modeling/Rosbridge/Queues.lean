import Mathlib.Data.Int.Basic
import Rosbridge.Library.Recent

/-!
# The message queues (`queues.h`, `queues.cpp`)

A method that takes the queue's mutex is one critical section, so it is one function here. The searches
`nextById` and `popById` do not take it, and are one step all the same. Neither queue looks at a message
before it is searched for, and the type of messages is a parameter.
Reading or removing the front of an empty container is undefined behaviour and has no result.
-/

namespace Rosbridge

variable {M : Type}

/-- `q.size() > q_size` compares a `size_t` with an `int`, which is converted. -/
def sizeT (n : Int32) : Nat := n.toInt64.toUInt64.toNat

/-- `while (this->q.size() > this->q_size) this->q.pop();` -/
def shrink (capacity : Nat) : List M → List M
  | [] => []
  | x :: rest => if (x :: rest).length > capacity then shrink capacity rest else x :: rest

theorem shrink_eq_rtake (capacity : Nat) (q : List M) : shrink capacity q = q.rtake capacity := by
  induction q with
  | nil => simp [shrink]
  | cons x rest ih =>
    unfold shrink
    split
    · rename_i longer
      rw [ih, List.rtake, List.rtake]
      rw [show (x :: rest).length - capacity = rest.length - capacity + 1 by
        simp only [List.length_cons] at longer ⊢; omega]
      rfl
    · rename_i fits
      exact (Recent.rtake_of_length_le (by omega)).symm

/-- What the loop throws away, front by front. -/
def overflow (capacity : Nat) : List M → List M
  | [] => []
  | x :: rest => if (x :: rest).length > capacity then x :: overflow capacity rest else []

theorem overflow_append_shrink (capacity : Nat) (q : List M) :
    overflow capacity q ++ shrink capacity q = q := by
  induction q with
  | nil => rfl
  | cons x rest ih =>
    unfold overflow shrink
    split
    · rw [List.cons_append, ih]
    · rfl

theorem overflow_of_fits {capacity : Nat} {q : List M} (fits : q.length ≤ capacity) :
    overflow capacity q = [] := by
  cases q with
  | nil => rfl
  | cons x rest =>
    unfold overflow
    split
    · omega
    · rfl

structure TalkerQueue (M : Type) where
  q_size : Int32
  head_msg : M
  head_popped : Bool := false
  q : List M := []
  orphan : Bool := false

namespace TalkerQueue

def new (queue_size : Int32) (head_msg : M) : TalkerQueue M :=
  { q_size := queue_size, head_msg := head_msg }

def capacity (t : TalkerQueue M) : Nat := sizeT t.q_size

def push (t : TalkerQueue M) (msg : M) : TalkerQueue M :=
  { t with q := shrink t.capacity (t.q ++ [msg]) }

def pop (t : TalkerQueue M) : Option (TalkerQueue M) :=
  if t.head_popped then
    match t.q with
    | [] => none
    | _ :: rest => some { t with q := rest }
  else some { t with head_popped := true }

def next (t : TalkerQueue M) : Option M :=
  if t.head_popped then t.q.head? else some t.head_msg

def empty (t : TalkerQueue M) : Bool := t.head_popped && t.q.isEmpty

def reset (t : TalkerQueue M) : TalkerQueue M := { t with head_popped := false }

def abandon (t : TalkerQueue M) : TalkerQueue M := { t with orphan := true }

def isOrphan (t : TalkerQueue M) : Bool := t.orphan

@[simp] theorem push_head_msg (t : TalkerQueue M) (msg : M) : (t.push msg).head_msg = t.head_msg := rfl
@[simp] theorem push_head_popped (t : TalkerQueue M) (msg : M) :
    (t.push msg).head_popped = t.head_popped := rfl

theorem push_q (t : TalkerQueue M) (msg : M) : (t.push msg).q = (t.q ++ [msg]).rtake t.capacity :=
  shrink_eq_rtake _ _

theorem push_q_of_room (t : TalkerQueue M) (msg : M) (room : t.q.length < t.capacity) :
    (t.push msg).q = t.q ++ [msg] := by
  rw [push_q, Recent.rtake_concat_of_lt msg room]

theorem push_getLast (t : TalkerQueue M) (msg : M) (sized : 0 < t.capacity) :
    (t.push msg).q.getLast? = some msg := by
  have kept : [msg].rtake t.capacity = [msg] := Recent.rtake_of_length_le sized
  rw [push_q, Recent.rtake_append, kept, List.getLast?_concat]

theorem mem_push_q {t : TalkerQueue M} {msg x : M} (member : x ∈ (t.push msg).q) :
    x ∈ t.q ∨ x = msg := by
  rw [push_q] at member
  simpa using (Recent.rtake_suffix _ _).subset member

/-- A message that `push` finds in the queue, or brings, is in the queue afterwards or was thrown
away by the overflow loop. -/
theorem push_keeps_or_drops (t : TalkerQueue M) {msg x : M} (member : x ∈ t.q ++ [msg]) :
    x ∈ (t.push msg).q ∨ x ∈ overflow t.capacity (t.q ++ [msg]) := by
  rw [← overflow_append_shrink t.capacity (t.q ++ [msg])] at member
  exact (List.mem_append.mp member).symm

def WithinSize (t : TalkerQueue M) : Prop := t.q.length ≤ t.capacity

theorem withinSize_push (t : TalkerQueue M) (msg : M) : (t.push msg).WithinSize := by
  show (t.push msg).q.length ≤ t.capacity
  rw [push_q, Recent.length_rtake]
  omega

/-- The overflow loop throws away only the oldest message of a full queue. -/
theorem mem_overflow {t : TalkerQueue M} {msg x : M} (sized : 0 < t.capacity) (bounded : t.WithinSize)
    (member : x ∈ overflow t.capacity (t.q ++ [msg])) : t.q.length = t.capacity ∧ t.q.head? = some x := by
  unfold WithinSize at bounded
  cases contents : t.q with
  | nil =>
    rw [contents, overflow_of_fits sized] at member
    cases member
  | cons y rest =>
    rw [contents, List.length_cons] at bounded
    rw [contents, List.cons_append, overflow] at member
    split at member
    · rename_i longer
      rw [List.length_cons, List.length_append, List.length_singleton] at longer
      have later : overflow t.capacity (rest ++ [msg]) = [] := overflow_of_fits (by simpa using bounded)
      rw [later, List.mem_singleton] at member
      exact ⟨by rw [List.length_cons]; omega, congrArg some member.symm⟩
    · cases member

/-- What `pop` takes off: the head message while it is pending, otherwise the front. -/
theorem pop_cases {t t' : TalkerQueue M} (popped : t.pop = some t') :
    (t.head_popped = false ∧ t' = { t with head_popped := true }) ∨
    (t.head_popped = true ∧ ∃ x rest, t.q = x :: rest ∧ t' = { t with q := rest }) := by
  unfold pop at popped
  split at popped
  · rename_i isPopped
    split at popped
    · cases popped
    · rename_i x rest contents
      exact .inr ⟨isPopped, x, rest, contents, (Option.some.inj popped).symm⟩
  · rename_i pending
    exact .inl ⟨by simpa using pending, (Option.some.inj popped).symm⟩

theorem pop_keeps {t t' : TalkerQueue M} (popped : t.pop = some t') :
    t'.head_msg = t.head_msg ∧ (∀ x ∈ t'.q, x ∈ t.q) ∧ t'.head_popped = true := by
  rcases pop_cases popped with ⟨-, rfl⟩ | ⟨isPopped, x, rest, contents, rfl⟩
  · exact ⟨rfl, fun _ member => member, rfl⟩
  · rw [contents]
    exact ⟨rfl, fun _ member => List.mem_cons_of_mem _ member, isPopped⟩

theorem next_cases {t : TalkerQueue M} {x : M} (next : t.next = some x) :
    (t.head_popped = false ∧ x = t.head_msg) ∨ (t.head_popped = true ∧ t.q.head? = some x) := by
  unfold TalkerQueue.next at next
  split at next
  · rename_i isPopped
    exact .inr ⟨isPopped, next⟩
  · rename_i pending
    exact .inl ⟨by simpa using pending, (Option.some.inj next).symm⟩

theorem popped_of_next_none {t : TalkerQueue M} (stuck : t.next = none) : t.head_popped = true := by
  by_contra pending
  simp [TalkerQueue.next, pending] at stuck

end TalkerQueue

structure ListenerQueue (M : Type) where
  q_size : Int32
  q : List M := []
  orphan : Bool := false

namespace ListenerQueue

def new (queue_size : Int32) : ListenerQueue M := { q_size := queue_size }

def capacity (l : ListenerQueue M) : Nat := sizeT l.q_size

def push (l : ListenerQueue M) (unserializer : M) : ListenerQueue M :=
  { l with q := shrink l.capacity (l.q ++ [unserializer]) }

def next (l : ListenerQueue M) : Option M := l.q.head?

def pop (l : ListenerQueue M) : Option (ListenerQueue M) :=
  match l.q with
  | [] => none
  | _ :: rest => some { l with q := rest }

def empty (l : ListenerQueue M) : Bool := l.q.isEmpty

def abandon (l : ListenerQueue M) : ListenerQueue M := { l with orphan := true }

def isOrphan (l : ListenerQueue M) : Bool := l.orphan

@[simp] theorem push_capacity (l : ListenerQueue M) (x : M) : (l.push x).capacity = l.capacity := rfl

theorem push_q (l : ListenerQueue M) (x : M) : (l.push x).q = (l.q ++ [x]).rtake l.capacity :=
  shrink_eq_rtake _ _

theorem push_q_of_room (l : ListenerQueue M) (x : M) (room : l.q.length < l.capacity) :
    (l.push x).q = l.q ++ [x] := by
  rw [push_q, Recent.rtake_concat_of_lt x room]

theorem mem_push_q {l : ListenerQueue M} {x y : M} (member : y ∈ (l.push x).q) :
    y ∈ l.q ∨ y = x := by
  rw [push_q] at member
  simpa using (Recent.rtake_suffix _ _).subset member

/-- `push` keeps the end of the queue with the new message, and throws away what is before it. -/
theorem overflow_append_push (l : ListenerQueue M) (x : M) :
    overflow l.capacity (l.q ++ [x]) ++ (l.push x).q = l.q ++ [x] :=
  overflow_append_shrink _ _

theorem pop_cases {l l' : ListenerQueue M} (popped : l.pop = some l') :
    ∃ x rest, l.q = x :: rest ∧ l' = { l with q := rest } := by
  unfold pop at popped
  split at popped
  · cases popped
  · rename_i x rest contents
    exact ⟨x, rest, contents, (Option.some.inj popped).symm⟩

end ListenerQueue

end Rosbridge
