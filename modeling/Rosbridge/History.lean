import Rosbridge.Library.Fifo
import Rosbridge.Library.Machine
import Rosbridge.Queues

/-!
# What the queues hold, by the history of their calls

The methods of one queue in any order, `next` and `pop` only when `empty` returned false. To say
which of several equal messages a `pop` takes off, the same calls run on numbered messages: the
queues copy messages and never look at them.
-/

namespace Rosbridge

variable {M N : Type} {b : Bool}

/-- Only a `TalkerQueue` has `reset`. -/
inductive Method (M : Type) : (resettable : Bool) → Type where
  | push {b : Bool} (msg : M) : Method M b
  | next {b : Bool} : Method M b
  | pop {b : Bool} : Method M b
  | empty {b : Bool} : Method M b
  | reset : Method M true

namespace Method

/-- `next` and `pop` are undefined on an empty queue. -/
def needsMessage : Method M b → Bool
  | .next => true
  | .pop => true
  | _ => false

def map (f : M → N) : Method M b → Method N b
  | .push msg => .push (f msg)
  | .next => .next
  | .pop => .pop
  | .empty => .empty
  | .reset => .reset

def pushes : Method M b → List M
  | .push msg => [msg]
  | _ => []

def isPop : Method M b → Bool
  | .pop => true
  | _ => false

@[simp] theorem needsMessage_map (f : M → N) (c : Method M b) :
    (c.map f).needsMessage = c.needsMessage := by
  cases c <;> rfl

@[simp] theorem isPop_map (f : M → N) (c : Method M b) : (c.map f).isPop = c.isPop := by
  cases c <;> rfl

end Method

def pushed (calls : List (Method M b)) : List M := calls.flatMap Method.pushes

def poppedSinceReset : Bool → List (Method M true) → Bool
  | before, [] => before
  | _, .pop :: rest => poppedSinceReset true rest
  | _, .reset :: rest => poppedSinceReset false rest
  | before, _ :: rest => poppedSinceReset before rest

/-- A message with its place among the pushes, which the head message has not. -/
abbrev Numbered (M : Type) := M × Option Nat

def number : Nat → List (Method M b) → List (Method (Numbered M) b)
  | _, [] => []
  | n, c :: rest => c.map (fun msg => (msg, some n)) :: number (n + c.pushes.length) rest

/-- The places of the messages that were the next one when `pop` was called. -/
def poppedPlaces {σ : Type} (call : σ → Method (Numbered M) b → σ) (next : σ → Option (Numbered M)) :
    σ → List (Method (Numbered M) b) → List Nat
  | _, [] => []
  | s, c :: rest =>
    (if c.isPop then ((next s).bind Prod.snd).toList else []) ++ poppedPlaces call next (call s c) rest

theorem map_number (n : Nat) (calls : List (Method M b)) :
    (number n calls).map (Method.map Prod.fst) = calls := by
  induction calls generalizing n with
  | nil => rfl
  | cons c rest ih =>
    rw [number, List.map_cons, ih]
    cases c <;> rfl

/-! ### The numbered messages that are stored -/

def numbering (msgs : List M) : List (Numbered M) := msgs.zipIdx.map fun x => (x.1, some x.2)

theorem numbering_concat (msgs : List M) (msg : M) :
    numbering (msgs ++ [msg]) = numbering msgs ++ [(msg, some msgs.length)] := by
  simp [numbering, List.zipIdx_append]

theorem map_numbering (msgs : List M) : (numbering msgs).map Prod.fst = msgs := by
  simp [numbering, Function.comp_def]

theorem length_numbering (msgs : List M) : (numbering msgs).length = msgs.length := by
  simp [numbering]

/-- `q` holds what a history with these pushes and these places taken off leaves of it. -/
abbrev Holds (capacity : Nat) (msgs : List M) (taken : List Nat) (q : List (Numbered M)) : Prop :=
  Fifo.Window capacity (numbering msgs) taken q

theorem holds_push {capacity : Nat} {msgs : List M} {taken : List Nat} {q : List (Numbered M)}
    (holds : Holds capacity msgs taken q) (msg : M) :
    Holds capacity (msgs ++ [msg]) taken ((q ++ [(msg, some msgs.length)]).rtake capacity) := by
  rw [Holds, numbering_concat]
  exact holds.push _

theorem holds_take {capacity : Nat} {msgs : List M} {taken : List Nat} {x : Numbered M}
    {rest : List (Numbered M)} (holds : Holds capacity msgs taken (x :: rest)) :
    Holds capacity msgs (taken ++ x.2.toList) rest := by
  have front := holds.front
  rw [List.head?_cons, length_numbering, numbering, List.getElem?_map, List.getElem?_zipIdx] at front
  have place : x.2 = some (msgs.length - (x :: rest).length) := by
    obtain ⟨y, found, numbered⟩ := Option.map_eq_some_iff.mp front.symm
    obtain ⟨msg, -, placed⟩ := Option.map_eq_some_iff.mp found
    rw [← placed, Nat.zero_add] at numbered
    exact (congrArg Prod.snd numbered).symm
  have taken' := holds.take
  rw [length_numbering] at taken'
  rw [place]
  exact taken'

/-- From one call to a history, for either queue. -/
theorem holds_run {σ : Type} {call : σ → Method (Numbered M) b → σ} {next : σ → Option (Numbered M)}
    {Allowed : σ → Method (Numbered M) b → Prop} {stored : σ → List (Numbered M)}
    {Fixed : σ → Prop} {capacity : Nat}
    (one : ∀ s (msgs : List M) taken (c : Method M b), Fixed s → Holds capacity msgs taken (stored s) →
      Allowed s (c.map fun msg => (msg, some msgs.length)) →
      let after := call s (c.map fun msg => (msg, some msgs.length))
      Fixed after ∧ Holds capacity (msgs ++ c.pushes)
        (taken ++ if c.isPop then ((next s).bind Prod.snd).toList else []) (stored after))
    {s : σ} (msgs : List M) (taken : List Nat) {calls : List (Method M b)} (fixed : Fixed s)
    (holds : Holds capacity msgs taken (stored s))
    (allowed : Machine.Along call Allowed s (number msgs.length calls)) :
    Holds capacity (msgs ++ pushed calls) (taken ++ poppedPlaces call next s (number msgs.length calls))
      (stored (Machine.run call s (number msgs.length calls))) := by
  induction calls generalizing s msgs taken with
  | nil => simpa [number, poppedPlaces, pushed, Machine.run] using holds
  | cons c rest ih =>
    obtain ⟨now, later⟩ := allowed
    obtain ⟨fixed, holds⟩ := one s msgs taken c fixed holds now
    rw [← List.length_append] at later
    have whole := ih _ _ fixed holds later
    rw [List.length_append] at whole
    simpa [number, poppedPlaces, pushed, Machine.run, List.append_assoc] using whole

theorem holds_survivors {capacity : Nat} {msgs : List M} {taken : List Nat} {q : List (Numbered M)}
    (holds : Holds capacity msgs taken q) :
    q.map Prod.fst = Fifo.survivors capacity msgs taken := by
  have plain := holds.map Prod.fst
  rw [map_numbering] at plain
  exact plain.contents_eq

/-! ### The calls of a talker queue -/

namespace TalkerQueue

def call (t : TalkerQueue M) : Method M true → TalkerQueue M
  | .push msg => t.push msg
  | .next => t
  | .pop => t.pop.getD t
  | .empty => t
  | .reset => t.reset

def Allowed (t : TalkerQueue M) (c : Method M true) : Prop := c.needsMessage = true → t.empty = false

instance (t : TalkerQueue M) (c : Method M true) : Decidable (t.Allowed c) :=
  inferInstanceAs (Decidable (c.needsMessage = true → t.empty = false))

/-- The places of the messages that a history on a new queue takes off. -/
def popped (queue_size : Int32) (head_msg : M) (calls : List (Method M true)) : List Nat :=
  poppedPlaces call next (.new queue_size (head_msg, none)) (number 0 calls)

def size (t : TalkerQueue M) : Nat := t.q.length + if t.head_popped then 0 else 1

theorem size_pop {t t' : TalkerQueue M} (popped : t.pop = some t') : t'.size < t.size := by
  rcases pop_cases popped with ⟨pending, rfl⟩ | ⟨isPopped, x, rest, contents, rfl⟩
  · simp [size, pending]
  · simp [size, isPopped, contents]

/-- `next` and `pop` until `empty`. -/
def drain (t : TalkerQueue M) : List M :=
  if t.empty then [] else
    match _ : t.pop with
    | none => []
    | some t' => t.next.toList ++ drain t'
termination_by t.size
decreasing_by exact size_pop ‹_›

theorem drain_eq (t : TalkerQueue M) :
    t.drain = (if t.head_popped then [] else [t.head_msg]) ++ t.q := by
  induction size : t.size using Nat.strong_induction_on generalizing t with
  | _ size' ih =>
    subst size
    unfold drain
    split
    · rename_i isEmpty
      simp only [TalkerQueue.empty, Bool.and_eq_true, List.isEmpty_iff] at isEmpty
      simp [isEmpty]
    · rename_i some_left
      split
      · rename_i stuck
        cases isPopped : t.head_popped with
        | false => simp [TalkerQueue.pop, isPopped] at stuck
        | true =>
          cases contents : t.q with
          | nil => simp [TalkerQueue.empty, isPopped, contents] at some_left
          | cons x rest => simp [TalkerQueue.pop, isPopped, contents] at stuck
      · rename_i t' popped
        rw [ih _ (size_pop popped) t' rfl]
        rcases pop_cases popped with ⟨pending, rfl⟩ | ⟨isPopped, x, rest, contents, rfl⟩
        · simp [next, pending]
        · simp [next, isPopped, contents]

def map (f : M → N) (t : TalkerQueue M) : TalkerQueue N where
  q_size := t.q_size
  head_msg := f t.head_msg
  head_popped := t.head_popped
  q := t.q.map f
  orphan := t.orphan

theorem map_call (f : M → N) (t : TalkerQueue M) (c : Method M true) :
    (t.call c).map f = (t.map f).call (c.map f) := by
  cases c with
  | push msg =>
    simp only [call, Method.map, map, push, shrink_eq_rtake, capacity, List.rtake]
    simp
  | pop =>
    obtain ⟨q_size, head_msg, head_popped, q, orphan⟩ := t
    cases head_popped with
    | false => rfl
    | true => cases q <;> rfl
  | _ => rfl

theorem allowed_of_map {f : M → N} {t : TalkerQueue M} {c : Method M true}
    (allowed : (t.map f).Allowed (c.map f)) : t.Allowed c := by
  simpa [Allowed, map, TalkerQueue.empty] using allowed

theorem call_keeps (t : TalkerQueue M) (c : Method M true) :
    (t.call c).head_msg = t.head_msg ∧ (t.call c).capacity = t.capacity := by
  cases c with
  | pop =>
    obtain ⟨q_size, head_msg, head_popped, q, orphan⟩ := t
    cases head_popped with
    | false => exact ⟨rfl, rfl⟩
    | true => cases q <;> exact ⟨rfl, rfl⟩
  | _ => exact ⟨rfl, rfl⟩

theorem head_popped_call {t : TalkerQueue M} {c : Method M true} :
    (t.call c).head_popped = poppedSinceReset t.head_popped [c] := by
  cases c with
  | pop =>
    obtain ⟨q_size, head_msg, head_popped, q, orphan⟩ := t
    cases head_popped with
    | false => rfl
    | true => cases q <;> rfl
  | _ => rfl

theorem holds_call (capacity : Nat) (t : TalkerQueue (Numbered M)) (msgs : List M) (taken : List Nat)
    (c : Method M true) (fixed : t.capacity = capacity ∧ t.head_msg.2 = none)
    (holds : Holds capacity msgs taken t.q)
    (allowed : t.Allowed (c.map fun msg => (msg, some msgs.length))) :
    let after := t.call (c.map fun msg => (msg, some msgs.length))
    (after.capacity = capacity ∧ after.head_msg.2 = none) ∧ Holds capacity (msgs ++ c.pushes)
      (taken ++ if c.isPop then (t.next.bind Prod.snd).toList else []) after.q := by
  obtain ⟨rfl, unnumbered⟩ := fixed
  obtain ⟨head_kept, capacity_kept⟩ := call_keeps t (c.map fun msg => (msg, some msgs.length))
  refine ⟨⟨capacity_kept, head_kept ▸ unnumbered⟩, ?_⟩
  cases c with
  | push msg =>
    have stored := holds_push holds msg
    rw [← push_q] at stored
    simpa [Method.pushes, Method.isPop, Method.map, call] using stored
  | pop =>
    have left := allowed rfl
    simp only [Method.pushes, Method.isPop, List.append_nil, ↓reduceIte, Method.map, call]
    cases isPopped : t.head_popped with
    | false =>
      have pop : t.pop = some { t with head_popped := true } := by simp [TalkerQueue.pop, isPopped]
      have next : t.next = some t.head_msg := by simp [TalkerQueue.next, isPopped]
      rw [pop, next, Option.bind_some, unnumbered, Option.toList_none, List.append_nil]
      exact holds
    | true =>
      cases contents : t.q with
      | nil => simp [TalkerQueue.empty, isPopped, contents] at left
      | cons x rest =>
        have pop : t.pop = some { t with q := rest } := by simp [TalkerQueue.pop, isPopped, contents]
        have next : t.next = some x := by simp [TalkerQueue.next, isPopped, contents]
        rw [pop, next]
        rw [contents] at holds
        exact holds_take holds
  | _ => simpa [Method.pushes, Method.isPop, Method.map, call, reset] using holds

theorem head_msg_run (t : TalkerQueue M) (calls : List (Method M true)) :
    (Machine.run call t calls).head_msg = t.head_msg := by
  induction calls generalizing t with
  | nil => rfl
  | cons c rest ih => rw [Machine.run, ih, (call_keeps t c).1]

theorem head_popped_run (t : TalkerQueue M) (calls : List (Method M true)) :
    (Machine.run call t calls).head_popped = poppedSinceReset t.head_popped calls := by
  induction calls generalizing t with
  | nil => rfl
  | cons c rest ih =>
    rw [Machine.run, ih, head_popped_call]
    cases c <;> rfl

/-- What a history leaves in a talker queue. -/
theorem q_run {queue_size : Int32} {head_msg : M} {calls : List (Method M true)}
    (allowed : Machine.Along call Allowed (.new queue_size head_msg) calls) :
    (Machine.run call (.new queue_size head_msg) calls).q =
      Fifo.survivors (sizeT queue_size) (pushed calls) (popped queue_size head_msg calls) := by
  obtain ⟨t, initial⟩ : ∃ t : TalkerQueue (Numbered M), t = .new queue_size (head_msg, none) := ⟨_, rfl⟩
  have plain : t.map Prod.fst = new queue_size head_msg := by rw [initial]; rfl
  have numbered : Machine.Along call Allowed t (number 0 calls) := by
    refine (Machine.along_map (map_call Prod.fst) ?_).imp fun t c => allowed_of_map
    rw [plain, map_number]
    exact allowed
  have holds : Holds (sizeT queue_size) (pushed calls) (popped queue_size head_msg calls)
      (Machine.run call t (number 0 calls)).q := by
    subst initial
    exact holds_run (holds_call _) [] [] ⟨rfl, rfl⟩ (Fifo.Window.initial _) numbered
  have same := Machine.run_map (map_call Prod.fst) t (number 0 calls)
  rw [plain, map_number] at same
  rw [← same]
  exact holds_survivors holds

end TalkerQueue

/-! ### The calls of a listener queue -/

namespace ListenerQueue

def call (l : ListenerQueue M) : Method M false → ListenerQueue M
  | .push msg => l.push msg
  | .next => l
  | .pop => l.pop.getD l
  | .empty => l

def Allowed (l : ListenerQueue M) (c : Method M false) : Prop := c.needsMessage = true → l.empty = false

instance (l : ListenerQueue M) (c : Method M false) : Decidable (l.Allowed c) :=
  inferInstanceAs (Decidable (c.needsMessage = true → l.empty = false))

def popped (queue_size : Int32) (calls : List (Method M false)) : List Nat :=
  poppedPlaces call next (.new queue_size) (number 0 calls)

theorem length_pop {l l' : ListenerQueue M} (popped : l.pop = some l') : l'.q.length < l.q.length := by
  obtain ⟨x, rest, contents, rfl⟩ := pop_cases popped
  simp [contents]

def drain (l : ListenerQueue M) : List M :=
  if l.empty then [] else
    match _ : l.pop with
    | none => []
    | some l' => l.next.toList ++ drain l'
termination_by l.q.length
decreasing_by exact length_pop ‹_›

theorem drain_eq (l : ListenerQueue M) : l.drain = l.q := by
  induction size : l.q.length generalizing l with
  | zero =>
    unfold drain
    simp [ListenerQueue.empty, List.length_eq_zero_iff.mp size]
  | succ n ih =>
    obtain ⟨x, rest, contents⟩ := List.exists_cons_of_length_eq_add_one size
    have pop : l.pop = some { l with q := rest } := by simp [ListenerQueue.pop, contents]
    have next : l.next = some x := by simp [ListenerQueue.next, contents]
    unfold drain
    rw [if_neg (by simp [ListenerQueue.empty, contents])]
    split
    · rename_i stuck
      rw [pop] at stuck
      cases stuck
    · rename_i l' popped
      rw [pop] at popped
      obtain rfl := Option.some.inj popped
      rw [ih _ (by simpa [contents] using size), next, contents]
      rfl

def map (f : M → N) (l : ListenerQueue M) : ListenerQueue N where
  q_size := l.q_size
  q := l.q.map f
  orphan := l.orphan

theorem map_call (f : M → N) (l : ListenerQueue M) (c : Method M false) :
    (l.call c).map f = (l.map f).call (c.map f) := by
  cases c with
  | push msg =>
    simp only [call, Method.map, map, push, shrink_eq_rtake, capacity, List.rtake]
    simp
  | pop =>
    obtain ⟨q_size, q, orphan⟩ := l
    cases q <;> rfl
  | _ => rfl

theorem allowed_of_map {f : M → N} {l : ListenerQueue M} {c : Method M false}
    (allowed : (l.map f).Allowed (c.map f)) : l.Allowed c := by
  simpa [Allowed, map, ListenerQueue.empty] using allowed

theorem holds_call (capacity : Nat) (l : ListenerQueue (Numbered M)) (msgs : List M) (taken : List Nat)
    (c : Method M false) (fixed : l.capacity = capacity) (holds : Holds capacity msgs taken l.q)
    (allowed : l.Allowed (c.map fun msg => (msg, some msgs.length))) :
    let after := l.call (c.map fun msg => (msg, some msgs.length))
    after.capacity = capacity ∧ Holds capacity (msgs ++ c.pushes)
      (taken ++ if c.isPop then (l.next.bind Prod.snd).toList else []) after.q := by
  subst fixed
  cases c with
  | push msg =>
    have stored := holds_push holds msg
    rw [← push_q] at stored
    exact ⟨rfl, by simpa [Method.pushes, Method.isPop, Method.map, call] using stored⟩
  | pop =>
    have left := allowed rfl
    cases contents : l.q with
    | nil => simp [ListenerQueue.empty, contents] at left
    | cons x rest =>
      have pop : l.pop = some { l with q := rest } := by simp [ListenerQueue.pop, contents]
      have next : l.next = some x := by simp [ListenerQueue.next, contents]
      simp only [Method.pushes, Method.isPop, List.append_nil, ↓reduceIte, Method.map, call, pop, next]
      rw [contents] at holds
      exact ⟨rfl, holds_take holds⟩
  | _ => exact ⟨rfl, by simpa [Method.pushes, Method.isPop, Method.map, call] using holds⟩

theorem q_run {queue_size : Int32} {calls : List (Method M false)}
    (allowed : Machine.Along call Allowed (.new queue_size) calls) :
    (Machine.run call (.new queue_size) calls).q =
      Fifo.survivors (sizeT queue_size) (pushed calls) (popped queue_size calls) := by
  obtain ⟨l, initial⟩ : ∃ l : ListenerQueue (Numbered M), l = .new queue_size := ⟨_, rfl⟩
  have plain : l.map Prod.fst = new queue_size := by rw [initial]; rfl
  have numbered : Machine.Along call Allowed l (number 0 calls) := by
    refine (Machine.along_map (map_call Prod.fst) ?_).imp fun l c => allowed_of_map
    rw [plain, map_number]
    exact allowed
  have holds : Holds (sizeT queue_size) (pushed calls) (popped queue_size calls)
      (Machine.run call l (number 0 calls)).q := by
    subst initial
    exact holds_run (holds_call _) [] [] rfl (Fifo.Window.initial _) numbered
  have same := Machine.run_map (map_call Prod.fst) l (number 0 calls)
  rw [plain, map_number] at same
  rw [← same]
  exact holds_survivors holds

end ListenerQueue

/-! ### Both queues -/

/-- Draining a queue after any history returns the head message, unless it was popped and not reset
since, and then what the history left. `reset` only brings the head message back. -/
theorem queues_are_bounded_fifos :
    (∀ (queue_size : Int32) (head_msg : M) (calls : List (Method M true)),
      Machine.Along TalkerQueue.call TalkerQueue.Allowed (.new queue_size head_msg) calls →
      let left := Machine.run TalkerQueue.call (.new queue_size head_msg) calls
      let stored := Fifo.survivors (sizeT queue_size) (pushed calls)
        (TalkerQueue.popped queue_size head_msg calls)
      left.drain = (if poppedSinceReset false calls then [] else [head_msg]) ++ stored ∧
        left.reset.drain = head_msg :: stored) ∧
    (∀ (queue_size : Int32) (calls : List (Method M false)),
      Machine.Along ListenerQueue.call ListenerQueue.Allowed (.new queue_size) calls →
      (Machine.run ListenerQueue.call (.new queue_size) calls).drain =
        Fifo.survivors (sizeT queue_size) (pushed calls) (ListenerQueue.popped queue_size calls)) := by
  refine ⟨fun queue_size head_msg calls allowed => ?_, fun queue_size calls allowed => ?_⟩
  · have head : (Machine.run TalkerQueue.call (.new queue_size head_msg) calls).head_msg = head_msg :=
      TalkerQueue.head_msg_run _ calls
    have head_popped := TalkerQueue.head_popped_run (.new queue_size head_msg) calls
    dsimp only
    rw [TalkerQueue.drain_eq, TalkerQueue.drain_eq, ← TalkerQueue.q_run allowed, head_popped, head]
    refine ⟨rfl, ?_⟩
    simp [TalkerQueue.reset, head]
  · rw [ListenerQueue.drain_eq, ListenerQueue.q_run allowed]

theorem queues_are_bounded_fifos_of_two :
    (Machine.run TalkerQueue.call (.new 2 0)
      [.push 1, .push 2, .pop, .next, .pop, .reset, .push 3, .push 4]).drain = [0, 3, 4] ∧
    (Machine.run ListenerQueue.call (.new 2) [.push 1, .push 2, .push 3, .pop, .empty]).drain = [3] :=
  ⟨((queues_are_bounded_fifos (M := Nat)).1 2 0
      [.push 1, .push 2, .pop, .next, .pop, .reset, .push 3, .push 4] (by decide)).1.trans (by decide),
    ((queues_are_bounded_fifos (M := Nat)).2 2
      [.push 1, .push 2, .push 3, .pop, .empty] (by decide)).trans (by decide)⟩

end Rosbridge
