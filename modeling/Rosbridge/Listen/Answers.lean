import Rosbridge.Listen.Call

/-!
# What a call returns

All calls of a service share the names under which its responses arrive, and a client keeps the
responses to all of them. A call tells its own by the identifier, and reads the first message in
the queue that carries it.
-/

namespace Rosbridge.Listen

open Unserializer

namespace Calls

/-! ### Calls do not throw -/

/-- A `service_response` whose `result` is a boolean, and with an object in `values` if that is true. -/
def Readable (u : Unserializer) : Bool :=
  u.typeOf = .ok .ServiceResponseOp &&
    match (u.json.read (ascii "result")).getBool with
    | .error _ => false
    | .ok false => true
    | .ok true => (u.json.read (ascii "values")).isObject

theorem successfulOf_throws_iff (u : Unserializer) :
    (∃ e, successfulOf u = .error e) ↔ Readable u = false := by
  unfold successfulOf resultOf guardedOf payloadOf Readable
  cases known : u.typeOf with
  | error e => simp
  | ok op =>
    by_cases isResponse : op = .ServiceResponseOp
    · subst isResponse
      simp only [decide_true, Bool.true_and, ↓reduceIte]
      cases (u.json.read (ascii "result")).getBool with
      | error e => simp
      | ok succeeded =>
        cases succeeded with
        | false => simp
        | true =>
          cases values : (u.json.read (ascii "values")).getObject with
          | error e =>
            have none : (u.json.read (ascii "values")).isObject = false := by
              by_contra isObject
              obtain ⟨o, found⟩ := Value.isObject_iff.mp (by simpa using isObject)
              rw [values] at found
              cases found
            simp [Except.map, none]
          | ok o =>
            have isObject := Value.isObject_iff.mpr ⟨o, values⟩
            simp [Except.map, isObject]
    · simp [isResponse]

def NeverThrows (s : Calls) : Prop := ∀ c ∈ s.calls, ∀ e, c.outcome ≠ .thrown e

/-- Of the messages that the client of a call holds, the first with the identifier of the call can
be read as a response whenever the call polls. -/
def Answerable (picojson : Picojson) (s : Calls) : Event → Bool
  | .poll k false =>
    match s.waiting k with
    | none => true
    | some (c, r) => ((visible r).find? fun u => u.idOf = c.request.id picojson).all Readable
  | _ => true

theorem verdict_throws_iff (id : Bytes) (msgs : List Unserializer) :
    (∃ e, verdict id msgs = .error e) ↔ (msgs.find? fun u => u.idOf = id).all Readable = false := by
  unfold verdict
  cases msgs.find? fun u => u.idOf = id with
  | none => simp
  | some u => exact successfulOf_throws_iff u

theorem outcome_thrown_iff (found : Except Exn (Option Object)) :
    (∃ e, Outcome.of found = .thrown e) ↔ ∃ e, found = .error e := by
  cases found with
  | error e => simp [Outcome.of]
  | ok result => cases result <;> simp [Outcome.of]

theorem neverThrows_modify {s : Calls} {calls : List ServiceCall} {k : Nat} {c : ServiceCall}
    {outcome : Outcome} (here : s.calls[k]? = some c) (pending : c.outcome = .pending)
    (same : calls = s.calls.modify k fun c' => { c' with outcome := outcome }) :
    (∀ c ∈ calls, ∀ e, c.outcome ≠ .thrown e) ↔ NeverThrows s ∧ ∀ e, outcome ≠ .thrown e := by
  subst same
  constructor
  · intro every
    refine ⟨fun c' member e thrown => ?_, fun e thrown => ?_⟩
    · obtain ⟨j, found⟩ := List.mem_iff_getElem?.mp member
      by_cases position : k = j
      · subst position
        obtain rfl : c = c' := Option.some.inj (here.symm.trans found)
        rw [pending] at thrown
        cases thrown
      · refine every c' (List.mem_iff_getElem?.mpr ⟨j, ?_⟩) e thrown
        rw [List.getElem?_modify_ne _ _ position, found]
    · refine every { c with outcome := outcome } (List.mem_iff_getElem?.mpr ⟨k, ?_⟩) e thrown
      rw [List.getElem?_modify_eq, here]
      rfl
  · rintro ⟨before, now⟩ c' member e
    obtain ⟨j, found⟩ := List.mem_iff_getElem?.mp member
    by_cases position : k = j
    · subst position
      rw [List.getElem?_modify_eq, here] at found
      rw [← Option.some.inj found]
      exact now e
    · rw [List.getElem?_modify_ne _ _ position] at found
      exact before c' (List.mem_of_getElem? found) e

theorem neverThrows_step {picojson : Picojson} {s : Calls} (h : Consistent s) (e : Event) :
    NeverThrows (s.step picojson e) ↔ NeverThrows s ∧ Answerable picojson s e = true := by
  cases e with
  | net e => simp [step, NeverThrows, Answerable]
  | call i input unique =>
    simp only [step, Answerable, and_true]
    split
    · simp [NeverThrows, or_imp, forall_and]
    · rfl
  | poll k expired =>
    cases waits : s.waiting k with
    | none => cases expired <;> simp [poll_idle _ waits, Answerable, waits]
    | some pair =>
      obtain ⟨c, r⟩ := pair
      obtain ⟨here, pending, -⟩ := waiting_eq_some waits
      cases expired with
      | true =>
        rw [poll_expired waits]
        have whole := neverThrows_modify here pending (rfl : (s.settle k .timeout).calls = _)
        rw [NeverThrows, whole]
        simp [Answerable]
      | false =>
        rw [NeverThrows, neverThrows_modify here pending (poll_calls h waits), Answerable, waits]
        have throws := verdict_throws_iff (c.request.id picojson) (visible r)
        have thrown := outcome_thrown_iff (verdict (c.request.id picojson) (visible r))
        rw [← not_iff_not] at throws thrown
        rw [← Bool.not_eq_false, ← throws, ← thrown, not_exists]

/-! ### Concrete runs -/

def client (service : String) (queue_size : Int32) : Event :=
  .net (.attach (.serviceClient { service := ascii service, queue_size := queue_size }))

def asks (i : Nat) (unique : String) : Event := .call i .empty (ascii unique)

def inbound (text : String) : Event := .net (.inbound (ascii text))

def response (unique : String) : Event :=
  .net (.inbound ((Serializer.serviceResponse (ascii "/add") .empty true (ascii unique)).serialized
    picojson.package))

/-! ### Answers -/

/-- A successful response of the service, with this identifier and these values. -/
structure Answers (service id : Bytes) (values : Object) (u : Unserializer) : Prop where
  type : u.typeOf = .ok .ServiceResponseOp
  service : u.json.read (ascii "service") = .ofString service
  id : u.json.read (ascii "id") = .ofString id
  result : u.json.read (ascii "result") = .ofBool true
  values : u.json.read (ascii "values") = .ofObject values

theorem Answers.idOf {service id : Bytes} {values : Object} {u : Unserializer}
    (h : Answers service id values u) : u.idOf = id := by
  rw [Unserializer.idOf, h.id]
  rfl

theorem Answers.successful {service id : Bytes} {values : Object} {u : Unserializer}
    (h : Answers service id values u) : successfulOf u = .ok (some values) := by
  simp [successfulOf, resultOf, guardedOf, payloadOf, h.type, h.result, h.values, Except.map]

/-- A successful response of the service that `id()` gives this identifier and that brings these values. -/
structure Responds (service id : Bytes) (values : Object) (u : Unserializer) : Prop where
  type : u.typeOf = .ok .ServiceResponseOp
  service : u.json.read (ascii "service") = .ofString service
  id : u.idOf = id
  result : u.json.read (ascii "result") = .ofBool true
  values : u.json.read (ascii "values") = .ofObject values

theorem id_of_idOf {u : Unserializer} {id : Bytes} (same : u.idOf = id) (nonempty : id ≠ []) :
    u.json.read (ascii "id") = .ofString id := by
  unfold Unserializer.idOf at same
  split at same
  · rename_i text field
    rw [← same]
    exact Value.getString_ok.mp field
  · exact absurd same.symm nonempty

theorem Responds.answers {service id : Bytes} {values : Object} {u : Unserializer}
    (h : Responds service id values u) (nonempty : id ≠ []) : Answers service id values u :=
  ⟨h.type, h.service, id_of_idOf h.id nonempty, h.result, h.values⟩

theorem responds_of_successful {u : Unserializer} {name id : Bytes} {values : Object}
    (routed : route u = .ok (some name)) (same : u.idOf = id)
    (succeeded : successfulOf u = .ok (some values)) : Responds name id values u := by
  unfold successfulOf at succeeded
  split at succeeded
  · cases succeeded
  · cases succeeded
  · rename_i result
    unfold resultOf guardedOf at result
    cases known : u.typeOf with
    | error e => simp [known] at result
    | ok op =>
      rw [known] at result
      by_cases isResponse : op = .ServiceResponseOp
      · subst isResponse
        simp only [decide_true, ↓reduceIte] at result
        rw [payloadOf, known] at succeeded
        rw [route, known] at routed
        have service : u.json.read (ascii "service") = .ofString name := map_getString_ok.mp routed
        have payload : (u.json.read (ascii "values")).getObject = .ok values := by
          cases object : (u.json.read (ascii "values")).getObject with
          | error e => simp [object, Except.map] at succeeded
          | ok o => simpa [object, Except.map] using succeeded
        exact ⟨known, service, same, Value.getBool_ok.mp result, Value.getObject_ok.mp payload⟩
      · simp [isResponse] at result

theorem verdict_responds {name id : Bytes} {msgs : List Unserializer} {values : Object}
    (routed : ∀ u ∈ msgs, route u = .ok (some name))
    (found : verdict id msgs = .ok (some values)) : ∃ u ∈ msgs, Responds name id values u := by
  unfold verdict at found
  split at found
  · cases found
  · rename_i u search
    have member := List.mem_of_find?_eq_some search
    have same : u.idOf = id := by simpa using List.find?_some search
    exact ⟨u, member, responds_of_successful (routed u member) same found⟩

theorem verdict_of_first {service id : Bytes} {before after : List Unserializer} {u : Unserializer}
    {values : Object} (first : ∀ w ∈ before, w.idOf ≠ id) (answers : Answers service id values u) :
    verdict id (before ++ u :: after) = .ok (some values) := by
  have search : (before ++ u :: after).find? (fun w => w.idOf = id) = some u := by
    rw [List.find?_append, List.find?_eq_none.mpr (by simpa using first)]
    simp [answers.idOf]
  rw [verdict, search]
  exact answers.successful

/-! ### A call returns only a response to its request -/

/-- A value that a call returned is the values of a successful response to its request, which was pushed
into the queue of its client. -/
def OwnResponses (picojson : Picojson) (s : Calls) : Prop :=
  ∀ c ∈ s.calls, ∀ values, c.outcome = .returned values →
    ∃ r, s.net.receivers[c.client]? = some r ∧
      ∃ u ∈ arrived r.2, Responds r.1.name (c.request.id picojson) values u

theorem own_kept {picojson : Picojson} {s : Calls} {net : Net} (h : OwnResponses picojson s)
    (keeps : Net.Keeps s.net.receivers net.receivers) : OwnResponses picojson { s with net := net } := by
  intro c member values returned
  obtain ⟨r, found, u, pushed, responds⟩ := h c member values returned
  obtain ⟨r', found', same, keep⟩ := keeps c.client r found
  exact ⟨r', found', u, keep u pushed, by rw [same]; exact responds⟩

/-- A call that now ends has found a response to its request, if it returns a value. -/
theorem own_settle {picojson : Picojson} {s : Calls} {k : Nat} {c : ServiceCall} {outcome : Outcome}
    (h : OwnResponses picojson s) (here : s.calls[k]? = some c)
    (found : ∀ values, outcome = .returned values → ∃ r, s.net.receivers[c.client]? = some r ∧
      ∃ u ∈ arrived r.2, Responds r.1.name (c.request.id picojson) values u) :
    OwnResponses picojson (s.settle k outcome) := by
  intro c' member values returned
  obtain ⟨j, position⟩ := List.mem_iff_getElem?.mp member
  rw [settle] at position
  by_cases same : k = j
  · subst same
    rw [List.getElem?_modify_eq, here] at position
    obtain rfl := Option.some.inj position
    exact found values returned
  · rw [List.getElem?_modify_ne _ _ same] at position
    exact h c' (List.mem_of_getElem? position) values returned

theorem verdict_visible {picojson : Picojson} {s : Calls} {c : ServiceCall} {r : Receiver × State}
    (h : Consistent s) (found : s.net.receivers[c.client]? = some r) {values : Object}
    (verdict : verdict (c.request.id picojson) (visible r) = .ok (some values)) :
    ∃ u ∈ arrived r.2, Responds r.1.name (c.request.id picojson) values u := by
  have routed := (h.mirrors r (List.mem_of_getElem? found)).routed
  obtain ⟨u, member, responds⟩ :=
    verdict_responds (fun u member => routed u (mem_visible member)) verdict
  exact ⟨u, mem_visible member, responds⟩

theorem outcome_returned {found : Except Exn (Option Object)} {values : Object}
    (returned : Outcome.of found = .returned values) : found = .ok (some values) := by
  cases found with
  | error e => cases returned
  | ok result =>
    cases result with
    | none => cases returned
    | some v => rw [Outcome.returned.inj returned]

theorem own_poll {picojson : Picojson} {s : Calls} (consistent : Consistent s) (h : OwnResponses picojson s)
    (k : Nat) (expired : Bool) : OwnResponses picojson (s.step picojson (.poll k expired)) := by
  cases waits : s.waiting k with
  | none =>
    rw [poll_idle _ waits]
    exact h
  | some pair =>
    obtain ⟨c, r⟩ := pair
    obtain ⟨here, pending, found⟩ := waiting_eq_some waits
    cases expired with
    | true =>
      rw [poll_expired waits]
      exact own_settle h here (by simp)
    | false =>
      obtain ⟨net, polled, keeps⟩ := poll_eq consistent waits
      rw [polled]
      refine own_settle (own_kept h keeps) here fun values returned => ?_
      obtain ⟨r', found', same, keep⟩ := keeps c.client r found
      obtain ⟨u, member, responds⟩ := verdict_visible consistent found (outcome_returned returned)
      exact ⟨r', found', u, keep u member, by rw [same]; exact responds⟩

theorem own_step {picojson : Picojson} {s : Calls} (consistent : Consistent s) (h : OwnResponses picojson s)
    (e : Event) : OwnResponses picojson (s.step picojson e) := by
  cases e with
  | net e => exact own_kept h (Net.keeps_step picojson s.net e)
  | call i input unique =>
    unfold step
    dsimp only
    split
    · intro c member values returned
      rcases List.mem_append.mp member with old | pending
      · exact h c old values returned
      · rw [List.mem_singleton.mp pending] at returned
        cases returned
    · exact h
  | poll k expired => exact own_poll consistent h k expired

theorem own_run (picojson : Picojson) (events : List Event) : OwnResponses picojson (run picojson {} events) := by
  have keep : ∀ (s : Calls) (e : Event), Consistent s ∧ OwnResponses picojson s →
      Consistent (s.step picojson e) ∧ OwnResponses picojson (s.step picojson e) :=
    fun s e ⟨consistent, h⟩ => ⟨consistent_step consistent picojson e, own_step consistent h e⟩
  exact (Machine.invariant_run keep ⟨consistent_start, by simp [OwnResponses]⟩ events).2

/-! ### A call ends without a value at its timeout -/

def TimedOut (c : ServiceCall) : Bool :=
  match c.outcome with
  | .timeout => true
  | _ => false

/-- The calls that have ended without a value are those of before and the one that still waits when the
condition of its loop finds that its time is over. -/
def EndsEmpty (picojson : Picojson) (s : Calls) (e : Event) : Prop :=
  ∀ k, (s.step picojson e).calls[k]?.any TimedOut = true ↔
    s.calls[k]?.any TimedOut = true ∨ (s.waiting k).isSome = true ∧ e = .poll k true

theorem timedOut_of (found : Except Exn (Option Object)) (c : ServiceCall) :
    TimedOut { c with outcome := .of found } = false := by
  cases found with
  | error e => rfl
  | ok result => cases result <;> rfl

theorem any_timedOut_settle {s : Calls} {j k : Nat} {c : ServiceCall} {outcome : Outcome}
    (here : s.calls[j]? = some c) (pending : c.outcome = .pending) :
    (s.settle j outcome).calls[k]?.any TimedOut =
      (s.calls[k]?.any TimedOut || decide (j = k) && TimedOut { c with outcome := outcome }) := by
  rw [settle, List.getElem?_modify]
  by_cases same : j = k
  · subst same
    rw [here]
    simp [TimedOut, pending]
  · simp [same]

theorem endsEmpty_step {picojson : Picojson} {s : Calls} (h : Consistent s) (e : Event) :
    EndsEmpty picojson s e := by
  intro k
  cases e with
  | net e => simp [step]
  | call i input unique =>
    unfold step
    dsimp only
    split
    · rename_i client _ _
      have fresh (n : Nat) : [({ client := i, request := .serviceRequest client.service input unique } :
          ServiceCall)][n]?.any TimedOut = false := by
        cases n <;> simp [TimedOut]
      rw [List.getElem?_append]
      split
      · simp
      · rename_i outside
        rw [fresh, List.getElem?_eq_none (not_lt.mp outside)]
        simp
    · simp
  | poll j expired =>
    cases waits : s.waiting j with
    | none =>
      rw [poll_idle _ waits]
      have idle : ¬ ((s.waiting k).isSome = true ∧ Event.poll j expired = .poll k true) := by
        rintro ⟨waiting, same⟩
        rw [← (Event.poll.inj same).1, waits] at waiting
        cases waiting
      exact (or_iff_left idle).symm
    | some pair =>
      obtain ⟨c, r⟩ := pair
      obtain ⟨here, pending, -⟩ := waiting_eq_some waits
      cases expired with
      | true =>
        rw [poll_expired waits, any_timedOut_settle here pending]
        by_cases same : j = k
        · subst same
          simp [TimedOut, waits]
        · simp [same]
      | false =>
        obtain ⟨net, polled, -⟩ := @poll_eq s h picojson j c r waits
        rw [polled, any_timedOut_settle (s := { s with net := net }) here pending, timedOut_of]
        simp

/-- A call returns the values of a successful response to its request or, at its timeout, no value, exactly
when every poll finds a message that can be read, or none. -/
theorem calls_never_throw_iff (picojson : Picojson) (events : List Event) :
    (NeverThrows (run picojson {} events) ∧ OwnResponses picojson (run picojson {} events) ∧
      Machine.Along (step picojson) (EndsEmpty picojson) {} events) ↔
      Machine.Along (step picojson) (fun s e => Answerable picojson s e = true) {} events := by
  have keep : ∀ (s : Calls) (e : Event), Consistent s → Consistent (s.step picojson e) :=
    fun s e h => consistent_step h picojson e
  have never : NeverThrows (run picojson {} events) ↔ NeverThrows {} ∧ Machine.Along (step picojson)
      (fun s e => Answerable picojson s e = true) {} events :=
    Machine.run_iff_along (fun s e h _ => keep s e h) (fun s e h _ => neverThrows_step h e) consistent_start
      (Machine.along_of_forall _ fun _ _ => trivial)
  have ends : Machine.Along (step picojson) (EndsEmpty picojson) {} events :=
    (Machine.along_invariant keep consistent_start events).imp fun s e h => endsEmpty_step h e
  rw [and_iff_left ⟨own_run picojson events, ends⟩, never]
  exact and_iff_right (by simp [NeverThrows])

/-- One message for the client, before the first poll of a call. -/
def misread (text : String) : List Event :=
  [client "/add" 10, asks 0 "1", inbound text, .poll 0 false]

def Thrown (c : ServiceCall) : Bool :=
  match c.outcome with
  | .thrown _ => true
  | _ => false

theorem throws_of_thrown {s : Calls} (thrown : s.calls.any Thrown = true) : ¬ NeverThrows s := by
  intro never
  obtain ⟨c, member, throws⟩ := List.any_eq_true.mp thrown
  unfold Thrown at throws
  split at throws
  · rename_i e outcome
    exact never c member e outcome
  · cases throws

/-- A request for the same service with the same identifier, a response without `result`, and one with
no object in `values`. -/
theorem misread_is_thrown :
    ¬ NeverThrows (run picojson.package {}
        (misread "\x7b\"op\":\"call_service\",\"service\":\"/add\",\"id\":\"1\"\x7d")) ∧
      ¬ NeverThrows (run picojson.package {}
        (misread "\x7b\"op\":\"service_response\",\"service\":\"/add\",\"id\":\"1\"\x7d")) ∧
      ¬ NeverThrows (run picojson.package {}
        (misread "\x7b\"op\":\"service_response\",\"service\":\"/add\",\"id\":\"1\",\"result\":true\x7d")) := by
  refine ⟨throws_of_thrown ?_, throws_of_thrown ?_, throws_of_thrown ?_⟩ <;> decide +kernel

/-! ### A call returns its own answer -/

theorem request_id (picojson : Picojson) (service unique : Bytes) (input : Object) :
    (Serializer.serviceRequest service input unique).id picojson = unique := by
  refine Serializer.id_eq picojson ?_
  rw [Serializer.serviceRequest, Serializer.read_set_of_ne _ _ (by decide),
    Serializer.read_set_of_ne _ _ (by decide), Serializer.read_new_id]

def ids (picojson : Picojson) (s : Calls) : List Bytes := s.calls.map fun c => c.request.id picojson

/-- `unique()` gives every request an identifier of its own. -/
def Fresh (picojson : Picojson) (s : Calls) : Event → Prop
  | .call _ _ unique => unique ≠ [] ∧ unique ∉ ids picojson s
  | _ => True

instance (picojson : Picojson) (s : Calls) : (e : Event) → Decidable (Fresh picojson s e)
  | .call _ _ unique => inferInstanceAs (Decidable (unique ≠ [] ∧ unique ∉ ids picojson s))
  | .net _ => .isTrue trivial
  | .poll _ _ => .isTrue trivial

/-- A value that a call returned is the values of a successful response that was pushed into the queue
of its client and carries its identifier. -/
def OwnAnswers (picojson : Picojson) (s : Calls) : Prop :=
  ∀ c ∈ s.calls, ∀ values, c.outcome = .returned values →
    ∃ r, s.net.receivers[c.client]? = some r ∧
      ∃ u ∈ arrived r.2, Answers r.1.name (c.request.id picojson) values u

/-- Every successful response carries what `answer` computes for its identifier. -/
def Computes (answer : Bytes → Object) (s : Calls) : Prop :=
  ∀ r ∈ s.net.receivers, ∀ u ∈ arrived r.2, ∀ service id values,
    Answers service id values u → values = answer id

structure Uncrossed (picojson : Picojson) (s : Calls) : Prop where
  consistent : Consistent s
  distinct : (ids picojson s).Nodup
  nonempty : ∀ id ∈ ids picojson s, id ≠ []
  responses : OwnResponses picojson s

theorem Uncrossed.own {picojson : Picojson} {s : Calls} (h : Uncrossed picojson s) : OwnAnswers picojson s := by
  intro c member values returned
  obtain ⟨r, found, u, pushed, responds⟩ := h.responses c member values returned
  exact ⟨r, found, u, pushed, responds.answers (h.nonempty _ (List.mem_map_of_mem member))⟩

theorem ids_modify (picojson : Picojson) (s : Calls) (net : Net) (k : Nat) (outcome : Outcome) :
    ids picojson (settle { s with net := net } k outcome) = ids picojson s := by
  refine List.ext_getElem? fun j => ?_
  rw [ids, ids, settle, List.getElem?_map, List.getElem?_map, List.getElem?_modify]
  cases s.calls[j]? with
  | none => rfl
  | some c => by_cases here : k = j <;> simp [here]

theorem ids_poll {picojson : Picojson} {s : Calls} (h : Consistent s) (k : Nat) (expired : Bool) :
    ids picojson (s.step picojson (.poll k expired)) = ids picojson s := by
  cases waits : s.waiting k with
  | none => rw [poll_idle _ waits]
  | some pair =>
    obtain ⟨c, r⟩ := pair
    cases expired with
    | true =>
      rw [poll_expired waits]
      exact ids_modify picojson s s.net k .timeout
    | false =>
      obtain ⟨net, polled, -⟩ := poll_eq h waits
      rw [polled]
      exact ids_modify picojson s net k _

theorem uncrossed_step {picojson : Picojson} {s : Calls} {e : Event} (h : Uncrossed picojson s)
    (fresh : Fresh picojson s e) : Uncrossed picojson (s.step picojson e) := by
  have consistent := consistent_step h.consistent picojson e
  have responses := own_step h.consistent h.responses e
  cases e with
  | net e => exact ⟨consistent, h.distinct, h.nonempty, responses⟩
  | call i input unique =>
    unfold step at consistent responses ⊢
    dsimp only at consistent responses ⊢
    split
    · rename_i client t found
      rw [found] at consistent responses
      obtain ⟨nonempty, new⟩ := fresh
      have apart : ∀ id ∈ ids picojson s, id ≠ unique := fun id old same => new (same ▸ old)
      have grown : ids picojson { s with calls := s.calls ++
          [{ client := i, request := .serviceRequest client.service input unique }] } =
          ids picojson s ++ [unique] := by
        simp [ids, request_id]
      refine ⟨consistent, ?_, fun id member => ?_, responses⟩
      · rw [grown]
        exact List.nodup_append.mpr ⟨h.distinct, List.nodup_singleton _, by simpa using apart⟩
      · rw [grown, List.mem_append, List.mem_singleton] at member
        rcases member with old | rfl
        · exact h.nonempty id old
        · exact nonempty
    · exact h
  | poll k expired =>
    have same : ids picojson (s.step picojson (.poll k expired)) = ids picojson s :=
      ids_poll h.consistent k expired
    exact ⟨consistent, by rw [same]; exact h.distinct, by rw [same]; exact h.nonempty, responses⟩

/-- A call that returns a value returns its own answer, whatever else arrives. -/
theorem calls_get_their_own_answers {picojson : Picojson} {events : List Event}
    (fresh : Machine.Along (step picojson) (Fresh picojson) {} events) :
    (ids picojson (run picojson {} events)).Nodup ∧ OwnAnswers picojson (run picojson {} events) ∧
      ∀ answer, Computes answer (run picojson {} events) → ∀ c ∈ (run picojson {} events).calls,
        ∀ values, c.outcome = .returned values → values = answer (c.request.id picojson) := by
  have initially : Uncrossed picojson {} :=
    ⟨consistent_start, by simp [ids], by simp [ids], by simp [OwnResponses]⟩
  have uncrossed : Uncrossed picojson (run picojson {} events) :=
    Machine.invariant_along (fun _ _ => uncrossed_step) initially fresh
  refine ⟨uncrossed.distinct, uncrossed.own, fun answer computes c member values returned => ?_⟩
  obtain ⟨r, found, u, pushed, answers⟩ := uncrossed.own c member values returned
  exact computes r (List.mem_of_getElem? found) u pushed r.1.name _ values answers

/-- Two clients of one service and three calls, one of them without an answer. -/
def concurrent : List Event :=
  [client "/add" 10, client "/add" 10, asks 0 "1", asks 1 "2", asks 0 "3", response "2", .poll 0 false,
    .poll 1 false, response "1", response "1", .poll 2 false, .poll 0 false, .poll 2 true]

def Returned (c : ServiceCall) : Bool :=
  match c.outcome with
  | .returned _ => true
  | _ => false

theorem calls_get_their_own_answers_concurrent :
    Machine.Along (step picojson.package) (Fresh picojson.package) {} concurrent ∧
      (run picojson.package {} concurrent).calls.map Returned = [true, true, false] ∧
      (ids picojson.package (run picojson.package {} concurrent)).Nodup ∧
      OwnAnswers picojson.package (run picojson.package {} concurrent) := by
  have fresh : Machine.Along (step picojson.package) (Fresh picojson.package) {} concurrent := by
    decide +kernel
  have whole := calls_get_their_own_answers fresh
  exact ⟨fresh, by decide +kernel, whole.1, whole.2.1⟩

/-! ### An answer that is available is returned -/

theorem ended_kept {picojson : Picojson} {s : Calls} {e : Event} {k : Nat} {c : ServiceCall}
    (h : Consistent s) (here : s.calls[k]? = some c) (ended : c.outcome ≠ .pending) :
    (s.step picojson e).calls[k]? = some c := by
  cases e with
  | net e => exact here
  | call i input unique =>
    have inside := (List.getElem?_eq_some_iff.mp here).1
    unfold step
    dsimp only
    split
    · rw [List.getElem?_append_left inside, here]
    · exact here
  | poll j expired =>
    cases waits : s.waiting j with
    | none => rw [poll_idle _ waits, here]
    | some pair =>
      obtain ⟨c', r⟩ := pair
      obtain ⟨here', pending, -⟩ := waiting_eq_some waits
      have apart : j ≠ k := by
        intro same
        subst same
        obtain rfl := Option.some.inj (here.symm.trans here')
        exact ended pending
      cases expired with
      | true => rw [poll_expired waits, settle, List.getElem?_modify_ne _ _ apart, here]
      | false => rw [poll_calls h waits, List.getElem?_modify_ne _ _ apart, here]

theorem ended_run {picojson : Picojson} {s : Calls} {k : Nat} {c : ServiceCall} (h : Consistent s)
    (here : s.calls[k]? = some c) (ended : c.outcome ≠ .pending) (events : List Event) :
    (run picojson s events).calls[k]? = some c := by
  have keep : ∀ (s : Calls) (e : Event), Consistent s ∧ s.calls[k]? = some c →
      Consistent (s.step picojson e) ∧ (s.step picojson e).calls[k]? = some c :=
    fun s e ⟨h, here⟩ => ⟨consistent_step h picojson e, ended_kept h here ended⟩
  exact (Machine.invariant_run keep ⟨h, here⟩ events).2

/-- With fewer later messages than the queue can hold, a message is still in the queue, behind those
before it for which there is room. -/
theorem visible_of_arrived {r : Receiver × State} {before after : List Unserializer} {u : Unserializer}
    (pushed : arrived r.2 = before ++ u :: after) (room : after.length < sizeT r.1.queue_size) :
    visible r = before.rtake (sizeT r.1.queue_size - (after.length + 1)) ++ u :: after := by
  have whole : (u :: after).length ≤ sizeT r.1.queue_size := by
    rw [List.length_cons]
    omega
  rw [visible, pushed, Recent.rtake_append, Recent.rtake_of_length_le whole, List.length_cons]

/-- A call returns the answer that its client received, when a poll finds it: fewer messages than the
queue can hold came after it, and none of those still queued before it has the identifier of the call. -/
theorem available_answer_is_returned {picojson : Picojson} {events : List Event} {k : Nat}
    {c : ServiceCall} {r : Receiver × State} {service : Bytes} {values : Object} {u : Unserializer}
    {before after : List Unserializer} (waits : (run picojson {} events).waiting k = some (c, r))
    (pushed : arrived r.2 = before ++ u :: after)
    (answers : Answers service (c.request.id picojson) values u)
    (room : after.length < sizeT r.1.queue_size)
    (first : ∀ w ∈ before.rtake (sizeT r.1.queue_size - (after.length + 1)),
      w.idOf ≠ c.request.id picojson) (rest : List Event) :
    (run picojson {} (events ++ .poll k false :: rest)).calls[k]? =
      some { c with outcome := .returned values } := by
  have consistent := consistent_run picojson events
  have found : verdict (c.request.id picojson) (visible r) = .ok (some values) := by
    rw [visible_of_arrived pushed room]
    exact verdict_of_first first answers
  obtain ⟨here, -, -⟩ := waiting_eq_some waits
  have returned : ((run picojson {} events).step picojson (.poll k false)).calls[k]? =
      some { c with outcome := .returned values } := by
    rw [poll_calls consistent waits, List.getElem?_modify_eq, here, found]
    rfl
  rw [run, Machine.run_append]
  exact ended_run (consistent_step consistent picojson _) returned (by simp) rest

instance (service id : Bytes) (values : Object) (u : Unserializer) :
    Decidable (Answers service id values u) :=
  decidable_of_iff (u.typeOf = .ok .ServiceResponseOp ∧
      u.json.read (ascii "service") = .ofString service ∧ u.json.read (ascii "id") = .ofString id ∧
      u.json.read (ascii "result") = .ofBool true ∧ u.json.read (ascii "values") = .ofObject values)
    ⟨fun ⟨type, service, id, result, values⟩ => ⟨type, service, id, result, values⟩,
      fun h => ⟨h.type, h.service, h.id, h.result, h.values⟩⟩

def received (unique : String) : Unserializer where
  json := (Serializer.serviceResponse (ascii "/add") .empty true (ascii unique)).json

/-- The queue is full: the oldest response has gone, and another one comes after the answer. -/
def crowded : List Event := [client "/add" 2, asks 0 "1", response "2", response "1", response "3"]

theorem available_answer_is_returned_crowded :
    ∃ c : ServiceCall,
      (run picojson.package {} (crowded ++ .poll 0 false :: [.poll 0 true])).calls[0]? =
        some { c with outcome := .returned .empty } := by
  obtain ⟨⟨c, r⟩, waits⟩ := Option.isSome_iff_exists.mp
    (by decide +kernel : ((run picojson.package {} crowded).waiting 0).isSome = true)
  have holds : ((run picojson.package {} crowded).waiting 0).map (fun w =>
      ((arrived w.2.2).map Unserializer.json, w.1.request.id picojson.package, w.2.1.queue_size)) =
      some ([(received "2").json, (received "1").json, (received "3").json], ascii "1", 2) := by
    decide +kernel
  rw [waits] at holds
  obtain ⟨jsons, unique, size⟩ : _ ∧ _ ∧ _ := by simpa using holds
  have pushed : arrived r.2 = [received "2"] ++ received "1" :: [received "3"] :=
    List.map_injective_iff.mpr (fun _ _ => Unserializer.ext) jsons
  have answers : Answers (ascii "/add") (c.request.id picojson.package) .empty (received "1") := by
    rw [unique]
    decide +kernel
  refine ⟨c, available_answer_is_returned waits pushed answers ?_ ?_ [.poll 0 true]⟩
  · rw [size]
    decide
  · rw [size, unique]
    decide +kernel

/-- With a queue of size 1, the response to another call drives the answer out. -/
def evicted : List Event := [client "/add" 1, asks 0 "1", response "1", response "2"]

/-- A response that failed stays in the queue, ahead of a successful one. -/
def hidden : List Event :=
  [client "/add" 10, asks 0 "1",
    .net (.inbound ((Serializer.serviceResponse (ascii "/add") .empty false (ascii "1")).serialized
      picojson.package)),
    response "1"]

def Answered (s : Calls) : Prop :=
  ∃ r ∈ s.net.receivers, ∃ u ∈ arrived r.2, Answers (ascii "/add") (ascii "1") .empty u

instance (s : Calls) : Decidable (Answered s) :=
  inferInstanceAs (Decidable (∃ r ∈ s.net.receivers, ∃ u ∈ arrived r.2, _))

/-- Both calls time out, and their answers came in before their polls. -/
theorem answered_call_times_out :
    (Answered (run picojson.package {} evicted) ∧
      (run picojson.package {} (evicted ++ [.poll 0 false, .poll 0 true])).calls.map TimedOut = [true]) ∧
    (Answered (run picojson.package {} hidden) ∧
      (run picojson.package {} (hidden ++ [.poll 0 false, .poll 0 true])).calls.map TimedOut = [true]) := by
  decide +kernel

end Calls

end Rosbridge.Listen
