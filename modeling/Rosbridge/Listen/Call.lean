import Rosbridge.Listen.ById
import Rosbridge.Listen.Payload

/-!
# Calling a service (`ServiceClient::call`)

Any number of calls wait at the same time, each polling the listener queue of its client until it
finds a successful response with its identifier, or its time is over. Nothing takes a response out
of the queue of a client again, so a poll sees the latest messages with the name of the service.
-/

namespace Rosbridge.Listen

open Unserializer

/-- `u.value().result()`, and `u.value().payload()` when that is true. -/
def successful : Access (Option Object) := do
  if !(← result) then return none
  return some (← payload)

/-- One turn of the loop. What it finds is a copy. -/
def poll (id : Bytes) (l : ListenerQueue Letter) : Except Exn (Option Object) × ListenerQueue Letter :=
  match l.nextById id with
  | (.error e, l') => (.error e, l')
  | (.ok none, l') => (.ok none, l')
  | (.ok (some u), l') => ((successful u.msg).1, l')

/-! ### What a poll returns -/

def successfulOf (u : Unserializer) : Except Exn (Option Object) :=
  match u.resultOf with
  | .error e => .error e
  | .ok false => .ok none
  | .ok true => u.payloadOf.map some

/-- What a poll makes of these messages. -/
def verdict (id : Bytes) (msgs : List Unserializer) : Except Exn (Option Object) :=
  match msgs.find? fun u => u.idOf = id with
  | none => .ok none
  | some u => successfulOf u

theorem successful_fst (u : Unserializer) : (successful u).1 = successfulOf u := by
  obtain ⟨value, same⟩ := result_yields u
  unfold successful successfulOf
  rw [bind_run]
  cases run : result u with
  | mk r v =>
    rw [run] at value same
    rw [← value]
    have payload_value : (payload v).1 = u.payloadOf := by
      rw [(payload_yields v).1]
      exact payloadOf_congr (reads_of_sameReads same)
    cases r with
    | error e => rfl
    | ok succeeded =>
      cases succeeded with
      | false => rfl
      | true =>
        simp only [Bool.not_true, Bool.false_eq_true, ↓reduceIte, bind_run]
        rw [← payload_value]
        cases payload v with
        | mk values w => cases values <;> rfl

theorem successfulOf_congr {u v : Unserializer} (same : u.reads = v.reads) :
    successfulOf u = successfulOf v := by
  rw [successfulOf, successfulOf, resultOf_congr same, payloadOf_congr same]

theorem verdict_congr {id : Bytes} {xs ys : List Unserializer} (same : xs.map reads = ys.map reads) :
    verdict id xs = verdict id ys := by
  induction xs generalizing ys with
  | nil =>
    obtain rfl := List.map_eq_nil_iff.mp same.symm
    rfl
  | cons x xs ih =>
    obtain ⟨y, ys, rfl, head, tail⟩ := List.map_eq_cons_iff.mp same.symm
    have later := ih tail.symm
    unfold verdict at later ⊢
    rw [List.find?_cons, List.find?_cons, idOf_congr head]
    by_cases found : x.idOf = id
    · simpa [found] using (successfulOf_congr head).symm
    · simpa [found] using later

theorem poll_fst (id : Bytes) (l : ListenerQueue Letter) :
    (poll id l).1 = verdict id (l.q.map Letter.msg) := by
  have found := l.nextById_found id
  have same : (fun u : Unserializer => decide (u.idOf = id)) ∘ Letter.msg =
      fun x => decide (x.msg.idOf = id) := rfl
  unfold poll verdict
  rw [List.find?_map, same]
  cases run : l.nextById id with
  | mk r l' =>
    rw [run] at found
    dsimp only at found
    subst found
    cases l.q.find? fun x => x.msg.idOf = id with
    | none => rfl
    | some x =>
      simp only [Option.map_some, successful_fst]
      exact successfulOf_congr (reads_asked x)

theorem poll_snd (id : Bytes) (l : ListenerQueue Letter) : (poll id l).2 = (l.nextById id).2 := by
  unfold poll
  cases l.nextById id with
  | mk r l' =>
    cases r with
    | error e => rfl
    | ok found => cases found <;> rfl

theorem reads_poll (id : Bytes) (l : ListenerQueue Letter) :
    (poll id l).2.q.map (fun x => x.msg.reads) = l.q.map fun x => x.msg.reads := by
  rw [poll_snd, l.nextById_reads]

/-! ### The calls of a client -/

inductive Outcome where
  | pending
  | returned (values : Object)
  | timeout
  | thrown (e : Exn)

def Outcome.of : Except Exn (Option Object) → Outcome
  | .ok none => .pending
  | .ok (some values) => .returned values
  | .error e => .thrown e

/-- The `ServiceClient` is the endpoint at that position. -/
structure ServiceCall where
  client : Nat
  request : Serializer
  outcome : Outcome := .pending

structure Calls where
  net : Net := {}
  calls : List ServiceCall := []

namespace Calls

/-- `expired` is what the condition of the loop finds. -/
inductive Event where
  | net (e : Net.Event)
  | call (client : Nat) (input : Object) (unique : Bytes)
  | poll (k : Nat) (expired : Bool)

def settle (s : Calls) (k : Nat) (outcome : Outcome) : Calls :=
  { s with calls := s.calls.modify k fun c => { c with outcome := outcome } }

/-- One turn of the loop of the call `c` at position `k`. -/
def turn (picojson : Picojson) (s : Calls) (k : Nat) (c : ServiceCall) (expired : Bool) : Calls :=
  match c.outcome, s.net.receivers[c.client]? with
  | .pending, some r =>
    if expired then s.settle k .timeout
    else
      let (found, queue) := Listen.poll (c.request.id picojson) r.2.queue
      let receivers := s.net.receivers.modify c.client fun r => (r.1, { r.2 with queue := queue })
      settle { s with net := { s.net with receivers := receivers } } k (.of found)
  | _, _ => s

def step (picojson : Picojson) (s : Calls) : Event → Calls
  | .net e => { s with net := s.net.step picojson e }
  | .call client input unique =>
    match s.net.receivers[client]? with
    | some (.serviceClient c, _) =>
      { s with calls := s.calls ++ [{ client := client, request := .serviceRequest c.service input unique }] }
    | _ => s
  | .poll k expired =>
    match s.calls[k]? with
    | none => s
    | some c => s.turn picojson k c expired

abbrev run (picojson : Picojson) (s : Calls) (events : List Event) : Calls :=
  Machine.run (step picojson) s events

end Calls

/-! ### What the queue of a client holds -/

/-- What came in has the name of the endpoint. The queue of a client, which has no thread, holds the
latest of it. -/
structure Mirrors (r : Receiver) (s : State) : Prop where
  size : s.queue.q_size = r.queue_size
  routed : ∀ u ∈ arrived s, route u = .ok (some r.name)
  latest : r.kind = none →
    s.queue.q.map (fun x => x.msg.reads) = ((arrived s).rtake s.queue.capacity).map reads

theorem map_rtake {α β : Type} (f : α → β) (xs : List α) (n : Nat) :
    (xs.rtake n).map f = (xs.map f).rtake n := by
  simp [List.rtake]

theorem q_size_step (kind : Kind) (s : State) (e : Event) : (step kind s e).queue.q_size = s.queue.q_size := by
  unfold step
  split
  · rfl
  · rfl
  · rfl
  · rename_i returned _
    have moves := listener_moves kind s returned
    generalize listener kind s returned = t at moves
    cases moves with
    | pops x removed queue pc next pop =>
      obtain ⟨y, rest, -, rfl⟩ := ListenerQueue.pop_cases pop
      rfl
    | _ => rfl

theorem mirrors_start (r : Receiver) : Mirrors r (start r.queue_size) where
  size := rfl
  routed u member := by cases member
  latest _ := by
    rw [arrived_start]
    simp [start, ListenerQueue.new, List.rtake]

theorem mirrors_push {r : Receiver} {s : State} {u : Unserializer} (h : Mirrors r s)
    (routed : route u = .ok (some r.name)) : Mirrors r (push s u) where
  size := h.size
  routed v member := by
    rw [arrived_push, List.mem_append, List.mem_singleton] at member
    rcases member with old | rfl
    · exact h.routed v old
    · exact routed
  latest silent := by
    have before := h.latest silent
    rw [arrived_push]
    show (s.queue.push _).q.map _ = _
    rw [ListenerQueue.push_q, map_rtake, List.map_append, before, map_rtake, map_rtake, List.map_append]
    exact Recent.rtake_append_rtake _ _ _

theorem mirrors_step {r : Receiver} {kind : Kind} {s : State} {e : Event} (h : Mirrors r s)
    (threaded : r.kind = some kind) (other : ∀ msg, e ≠ .push msg) : Mirrors r (step kind s e) where
  size := by rw [q_size_step, h.size]
  routed u member := by
    rw [arrived_step other] at member
    exact h.routed u member
  latest silent := by
    rw [threaded] at silent
    cases silent

theorem mirrors_poll {r : Receiver} {s : State} (h : Mirrors r s) (id : Bytes) :
    Mirrors r { s with queue := (poll id s.queue).2 } where
  size := by
    rw [poll_snd]
    exact h.size
  routed := h.routed
  latest silent := by
    rw [reads_poll, h.latest silent, poll_snd]
    rfl

theorem poll_latest {r : Receiver} {s : State} (h : Mirrors r s) (silent : r.kind = none) (id : Bytes) :
    (poll id s.queue).1 = verdict id ((arrived s).rtake s.queue.capacity) := by
  rw [poll_fst]
  refine verdict_congr ?_
  rw [← h.latest silent, List.map_map]
  rfl

namespace Calls

/-- Every call is one of a `ServiceClient` of the net. -/
structure Consistent (s : Calls) : Prop where
  wired : Net.Wired s.net
  mirrors : Net.Each Mirrors s.net
  clients : ∀ c ∈ s.calls, ∃ client, (s.net.receivers.map Prod.fst)[c.client]? = some (.serviceClient client)

theorem Consistent.silent {s : Calls} (h : Consistent s) {c : ServiceCall} (member : c ∈ s.calls)
    {r : Receiver × State} (found : s.net.receivers[c.client]? = some r) : r.1.kind = none := by
  obtain ⟨client, same⟩ := h.clients c member
  rw [List.getElem?_map, found] at same
  rw [Option.some.inj same]
  rfl

theorem fst_kept {net : Net} {picojson : Picojson} {e : Net.Event} {i : Nat} {r : Receiver}
    (found : (net.receivers.map Prod.fst)[i]? = some r) :
    ((net.step picojson e).receivers.map Prod.fst)[i]? = some r := by
  have inside := (List.getElem?_eq_some_iff.mp found).1
  cases e with
  | attach r' =>
    simp only [Net.step, List.map_append]
    rw [List.getElem?_append_left inside, found]
  | inbound data =>
    unfold Net.step
    dsimp only
    split
    · exact found
    · rw [Net.deliveries_fst]
      exact found
  | listener j returned =>
    simp only [Net.step, Net.modify_fst _ _ (Net.act_fst _)]
    exact found
  | destroy j =>
    simp only [Net.step, Net.modify_fst _ _ (Net.act_fst _)]
    exact found

theorem consistent_start : Consistent {} := ⟨Net.wired_start, by simp [Net.Each], by simp⟩

theorem consistent_net {s : Calls} (h : Consistent s) (picojson : Picojson) (e : Net.Event) :
    Consistent { s with net := s.net.step picojson e } where
  wired := Net.wired_step h.wired picojson e
  mirrors := by
    refine Net.each_step h.wired h.mirrors mirrors_start ?_ ?_
    · intro data u r t inbound built routed member mirrors
      exact mirrors_push mirrors routed
    · intro r kind t e' threaded other mirrors
      exact mirrors_step mirrors threaded other
  clients c member := by
    obtain ⟨client, same⟩ := h.clients c member
    exact ⟨client, fst_kept same⟩

/-- A call is changed in its outcome only. -/
theorem client_settle {s : Calls} {k : Nat} {outcome : Outcome} {c : ServiceCall}
    (member : c ∈ (s.settle k outcome).calls) : ∃ c' ∈ s.calls, c'.client = c.client := by
  obtain ⟨j, found⟩ := List.mem_iff_getElem?.mp member
  rw [settle, List.getElem?_modify] at found
  obtain ⟨c', found', same⟩ := Option.map_eq_some_iff.mp found
  refine ⟨c', List.mem_of_getElem? found', ?_⟩
  rw [← same]
  split <;> rfl

theorem consistent_settle {s : Calls} (h : Consistent s) (k : Nat) (outcome : Outcome) :
    Consistent (s.settle k outcome) where
  wired := h.wired
  mirrors := h.mirrors
  clients c member := by
    obtain ⟨c', member', same⟩ := client_settle member
    rw [← same]
    exact h.clients c' member'

theorem consistent_polled {s : Calls} (h : Consistent s) (i : Nat) (id : Bytes) {r : Receiver × State}
    (found : s.net.receivers[i]? = some r) :
    Consistent { s with net := { s.net with
      receivers := s.net.receivers.modify i
        fun r' => (r'.1, { r'.2 with queue := (poll id r.2.queue).2 }) } } := by
  have same := Net.modify_fst s.net.receivers i
    (f := fun r' => (r'.1, { r'.2 with queue := (poll id r.2.queue).2 })) fun _ => rfl
  refine ⟨Net.wired_congr h.wired same, ?_, fun c member => ?_⟩
  · refine Net.each_modify h.mirrors i fun r' found' mirrors => ?_
    obtain rfl : r = r' := Option.some.inj (found.symm.trans found')
    exact mirrors_poll mirrors id
  · rw [same]
    exact h.clients c member

theorem consistent_step {s : Calls} (h : Consistent s) (picojson : Picojson) (e : Event) :
    Consistent (s.step picojson e) := by
  cases e with
  | net e => exact consistent_net h picojson e
  | call i input unique =>
    unfold step
    dsimp only
    split
    · rename_i client t found
      refine ⟨h.wired, h.mirrors, fun c member => ?_⟩
      rcases List.mem_append.mp member with old | new
      · exact h.clients c old
      · rw [List.mem_singleton.mp new]
        exact ⟨client, by rw [List.getElem?_map, found]; rfl⟩
    · exact h
  | poll k expired =>
    unfold step
    dsimp only
    split
    · exact h
    · rename_i c here
      unfold turn
      split
      · rename_i r pending found
        split
        · exact consistent_settle h k _
        · exact consistent_settle (consistent_polled h c.client _ found) k _
      · exact h

theorem consistent_run (picojson : Picojson) (events : List Event) : Consistent (run picojson {} events) := by
  have keep : ∀ (s : Calls) (e : Event), Consistent s → Consistent (s.step picojson e) :=
    fun s e h => consistent_step h picojson e
  exact Machine.invariant_run keep consistent_start events

/-! ### What one poll does -/

def waiting (s : Calls) (k : Nat) : Option (ServiceCall × Receiver × State) :=
  s.calls[k]?.bind fun c =>
    match c.outcome with
    | .pending => s.net.receivers[c.client]?.map fun r => (c, r)
    | _ => none

theorem waiting_eq_some {s : Calls} {k : Nat} {c : ServiceCall} {r : Receiver × State}
    (waits : s.waiting k = some (c, r)) :
    s.calls[k]? = some c ∧ c.outcome = .pending ∧ s.net.receivers[c.client]? = some r := by
  obtain ⟨c', here, rest⟩ := Option.bind_eq_some_iff.mp waits
  split at rest
  · rename_i pending
    obtain ⟨r', found, same⟩ := Option.map_eq_some_iff.mp rest
    obtain ⟨rfl, rfl⟩ := Prod.mk.inj same
    exact ⟨here, pending, found⟩
  · cases rest

theorem waiting_of {s : Calls} {k : Nat} {c : ServiceCall} {r : Receiver × State}
    (here : s.calls[k]? = some c) (pending : c.outcome = .pending)
    (found : s.net.receivers[c.client]? = some r) : s.waiting k = some (c, r) := by
  rw [waiting, here, Option.bind_some, pending]
  simp [found]

theorem poll_idle {s : Calls} {picojson : Picojson} {k : Nat} (expired : Bool)
    (idle : s.waiting k = none) : s.step picojson (.poll k expired) = s := by
  unfold step
  dsimp only
  split
  · rfl
  · rename_i c here
    unfold turn
    split
    · rename_i r pending found
      rw [waiting_of here pending found] at idle
      cases idle
    · rfl

theorem poll_expired {s : Calls} {picojson : Picojson} {k : Nat} {c : ServiceCall} {r : Receiver × State}
    (waits : s.waiting k = some (c, r)) : s.step picojson (.poll k true) = s.settle k .timeout := by
  obtain ⟨here, pending, found⟩ := waiting_eq_some waits
  simp only [step, here, turn, pending, found, ↓reduceIte]

/-- The messages in the queue of a client: the latest that came in, as many as it can hold. -/
def visible (r : Receiver × State) : List Unserializer := (arrived r.2).rtake (sizeT r.1.queue_size)

theorem mem_visible {r : Receiver × State} {u : Unserializer} (member : u ∈ visible r) : u ∈ arrived r.2 :=
  (Recent.rtake_suffix _ _).subset member

/-- The call takes what the messages in the queue of its client come to, and the client keeps them. -/
theorem poll_eq {s : Calls} (h : Consistent s) {picojson : Picojson} {k : Nat} {c : ServiceCall}
    {r : Receiver × State} (waits : s.waiting k = some (c, r)) :
    ∃ net, s.step picojson (.poll k false) =
        settle { s with net := net } k (.of (verdict (c.request.id picojson) (visible r))) ∧
      Net.Keeps s.net.receivers net.receivers := by
  obtain ⟨here, pending, found⟩ := waiting_eq_some waits
  have mirrors := h.mirrors r (List.mem_of_getElem? found)
  have silent := h.silent (List.mem_of_getElem? here) found
  have latest := poll_latest mirrors silent (c.request.id picojson)
  rw [ListenerQueue.capacity, mirrors.size] at latest
  rw [visible, ← latest]
  refine ⟨{ s.net with receivers := s.net.receivers.modify c.client fun r' =>
    (r'.1, { r'.2 with queue := (poll (c.request.id picojson) r.2.queue).2 }) }, ?_, ?_⟩
  · simp only [step, here, turn, pending, found, Bool.false_eq_true, ↓reduceIte]
  · exact Net.keeps_modify s.net.receivers c.client (fun _ => rfl) fun _ _ member => member

theorem poll_calls {s : Calls} (h : Consistent s) {picojson : Picojson} {k : Nat} {c : ServiceCall}
    {r : Receiver × State} (waits : s.waiting k = some (c, r)) :
    (s.step picojson (.poll k false)).calls = s.calls.modify k fun c' =>
      { c' with outcome := .of (verdict (c.request.id picojson) (visible r)) } := by
  obtain ⟨net, polled, -⟩ := poll_eq h waits
  rw [polled]
  rfl

end Calls

end Rosbridge.Listen
