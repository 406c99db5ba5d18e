import Rosbridge.Library.Mutex
import Rosbridge.Queues

/-!
# The mutex of a queue (`queues.cpp`)

The bodies of the methods under their `lock_guard`, one access to the members at a time. Every
interleaving of them is one of the methods as the rest of the model has them. `nextById` and `popById`
take no lock and are not among them; `abandon` and `isOrphan` use an atomic of their own.
-/

namespace Rosbridge

variable {M : Type}

inductive Answer (M : Type) where
  | nothing
  | message (x : M)
  | flag (b : Bool)
  | undefined

namespace TalkerQueue

inductive Call (M : Type) where
  | push (msg : M)
  | pop
  | next
  | empty
  | reset

/-- Before the access of that name. -/
inductive Access (M : Type) where
  | push (msg : M)
  | size
  | shed
  | pop
  | popFront
  | popHead
  | next
  | front
  | head
  | empty
  | isEmpty
  | reset

def critical : Mutex.Object (Call M) (Access M) (TalkerQueue M) (Answer M) where
  enter
    | .push msg => .push msg
    | .pop => .pop
    | .next => .next
    | .empty => .empty
    | .reset => .reset
  step access t :=
    match access with
    | .push msg => ({ t with q := t.q ++ [msg] }, .inl .size)
    | .size => if t.q.length > t.capacity then (t, .inl .shed) else (t, .inr .nothing)
    | .shed =>
      match t.q with
      | [] => (t, .inr .undefined)
      | _ :: rest => ({ t with q := rest }, .inl .size)
    | .pop => if t.head_popped then (t, .inl .popFront) else (t, .inl .popHead)
    | .popFront =>
      match t.q with
      | [] => (t, .inr .undefined)
      | _ :: rest => ({ t with q := rest }, .inr .nothing)
    | .popHead => ({ t with head_popped := true }, .inr .nothing)
    | .next => if t.head_popped then (t, .inl .front) else (t, .inl .head)
    | .front =>
      match t.q with
      | [] => (t, .inr .undefined)
      | x :: _ => (t, .inr (.message x))
    | .head => (t, .inr (.message t.head_msg))
    | .empty => if t.head_popped then (t, .inl .isEmpty) else (t, .inr (.flag false))
    | .isEmpty => (t, .inr (.flag t.q.isEmpty))
    | .reset => ({ t with head_popped := false }, .inr .nothing)

def apply (call : Call M) (t : TalkerQueue M) : TalkerQueue M × Answer M :=
  match call with
  | .push msg => (t.push msg, .nothing)
  | .pop =>
    match t.pop with
    | some t' => (t', .nothing)
    | none => (t, .undefined)
  | .next =>
    match t.next with
    | some x => (t, .message x)
    | none => (t, .undefined)
  | .empty => (t, .flag t.empty)
  | .reset => (t.reset, .nothing)

/-- The overflow loop. -/
theorem size_runs (t : TalkerQueue M) :
    Mutex.Runs critical .size t { t with q := shrink t.capacity t.q } .nothing := by
  obtain ⟨q_size, head_msg, head_popped, q, orphan⟩ := t
  induction q with
  | nil => exact .yields rfl
  | cons x rest ih =>
    unfold shrink
    split
    · rename_i longer
      exact .goes (if_pos longer) (.goes rfl ih)
    · rename_i fits
      exact .yields (if_neg fits)

theorem critical_atomic : Mutex.Atomic (critical (M := M)) apply := by
  intro call t
  cases call with
  | push msg => exact .goes rfl (size_runs _)
  | pop =>
    obtain ⟨q_size, head_msg, head_popped, q, orphan⟩ := t
    cases head_popped with
    | false => exact .goes rfl (.yields rfl)
    | true => cases q <;> exact .goes rfl (.yields rfl)
  | next =>
    obtain ⟨q_size, head_msg, head_popped, q, orphan⟩ := t
    cases head_popped with
    | false => exact .goes rfl (.yields rfl)
    | true => cases q <;> exact .goes rfl (.yields rfl)
  | empty =>
    obtain ⟨q_size, head_msg, head_popped, q, orphan⟩ := t
    cases head_popped with
    | false => exact .yields rfl
    | true => exact .goes rfl (.yields rfl)
  | reset => exact .yields rfl

end TalkerQueue

namespace ListenerQueue

inductive Call (M : Type) where
  | push (unserializer : M)
  | next
  | pop
  | empty

/-- Before the access of that name. -/
inductive Access (M : Type) where
  | push_back (unserializer : M)
  | size
  | shed
  | front
  | pop_front
  | empty

def critical : Mutex.Object (Call M) (Access M) (ListenerQueue M) (Answer M) where
  enter
    | .push unserializer => .push_back unserializer
    | .next => .front
    | .pop => .pop_front
    | .empty => .empty
  step access l :=
    match access with
    | .push_back unserializer => ({ l with q := l.q ++ [unserializer] }, .inl .size)
    | .size => if l.q.length > l.capacity then (l, .inl .shed) else (l, .inr .nothing)
    | .shed =>
      match l.q with
      | [] => (l, .inr .undefined)
      | _ :: rest => ({ l with q := rest }, .inl .size)
    | .front =>
      match l.q with
      | [] => (l, .inr .undefined)
      | x :: _ => (l, .inr (.message x))
    | .pop_front =>
      match l.q with
      | [] => (l, .inr .undefined)
      | _ :: rest => ({ l with q := rest }, .inr .nothing)
    | .empty => (l, .inr (.flag l.q.isEmpty))

def apply (call : Call M) (l : ListenerQueue M) : ListenerQueue M × Answer M :=
  match call with
  | .push unserializer => (l.push unserializer, .nothing)
  | .next =>
    match l.next with
    | some x => (l, .message x)
    | none => (l, .undefined)
  | .pop =>
    match l.pop with
    | some l' => (l', .nothing)
    | none => (l, .undefined)
  | .empty => (l, .flag l.empty)

/-- The overflow loop. -/
theorem size_runs (l : ListenerQueue M) :
    Mutex.Runs critical .size l { l with q := shrink l.capacity l.q } .nothing := by
  obtain ⟨q_size, q, orphan⟩ := l
  induction q with
  | nil => exact .yields rfl
  | cons x rest ih =>
    unfold shrink
    split
    · rename_i longer
      exact .goes (if_pos longer) (.goes rfl ih)
    · rename_i fits
      exact .yields (if_neg fits)

theorem critical_atomic : Mutex.Atomic (critical (M := M)) apply := by
  intro call l
  cases call with
  | push unserializer => exact .goes rfl (size_runs _)
  | next =>
    obtain ⟨q_size, q, orphan⟩ := l
    cases q <;> exact .yields rfl
  | pop =>
    obtain ⟨q_size, q, orphan⟩ := l
    cases q <;> exact .yields rfl
  | empty => exact .yields rfl

end ListenerQueue

/-- Whatever the interleaving of any number of threads, the locked methods of a queue act as if each
were one step: the calls that have ended, made one at a time in the order in which they ended, give
their answers, and the queue whenever the mutex is free. -/
theorem queue_methods_are_atomic {θ : Type} [DecidableEq θ] :
    (∀ (t : TalkerQueue M) (events : List (θ × Mutex.Action (TalkerQueue.Call M))),
      Mutex.Serialised TalkerQueue.apply t (Mutex.run TalkerQueue.critical { object := t } events)) ∧
    ∀ (l : ListenerQueue M) (events : List (θ × Mutex.Action (ListenerQueue.Call M))),
      Mutex.Serialised ListenerQueue.apply l (Mutex.run ListenerQueue.critical { object := l } events) :=
  ⟨fun t events => (Mutex.linearizable_run _ t events).serialised TalkerQueue.critical_atomic,
    fun l events => (Mutex.linearizable_run _ l events).serialised ListenerQueue.critical_atomic⟩

end Rosbridge
