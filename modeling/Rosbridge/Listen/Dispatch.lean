import Rosbridge.Picojson.Serialize
import Rosbridge.Unserializer

/-!
# Dispatch (`RosbridgeClient::listen`)

`listeners` maps a name to the queues attached under it; `operator[]` reads no queue under a name
that is not there. `listen` yields the calls of `ListenerQueue::push` it makes, in order. All its
accessors run before the first of them, so a call that throws has pushed nothing.
-/

namespace Rosbridge

open Unserializer

abbrev Listeners := Bytes → List Nat

namespace Listeners

def none : Listeners := fun _ => []

def attach (listeners : Listeners) (q : Nat) (topic : Bytes) : Listeners := fun name =>
  if name = topic then listeners name ++ [q] else listeners name

end Listeners

abbrev Pushes := List (Nat × Unserializer)

/-- `for (listener : this->listeners[name]) listener->push(unserializer);` -/
def deliver (listeners : Listeners) (name : Bytes) : Access Pushes := fun u =>
  (.ok ((listeners name).map fun q => (q, u)), u)

def dispatch (listeners : Listeners) : Access Pushes := do
  match ← type with
  | .TopicPublishOp => deliver listeners (← topic)
  | .ServiceCallOp => deliver listeners (← service)
  | .ServiceResponseOp => deliver listeners (← service)
  | _ => return []

def listen (picojson : Picojson) (listeners : Listeners) (data : Bytes) : Except Exn Pushes := do
  let unserializer ← Unserializer.new picojson data
  (dispatch listeners unserializer).1

/-! ### Where a message goes -/

/-- The name under which a message is delivered, if its operation is delivered at all. -/
def route (u : Unserializer) : Except Exn (Option Bytes) :=
  match u.typeOf with
  | .error e => .error e
  | .ok .TopicPublishOp => (u.json.read (ascii "topic")).getString.map some
  | .ok .ServiceCallOp => (u.json.read (ascii "service")).getString.map some
  | .ok .ServiceResponseOp => (u.json.read (ascii "service")).getString.map some
  | .ok _ => .ok none

def deliveries (listeners : Listeners) (u : Unserializer) : Option Bytes → Pushes
  | none => []
  | some name => (listeners name).map fun q => (q, u)

/-- The operation, and the topic or service that goes with it. -/
def Addressed (json : Object) (name : Bytes) : Prop :=
  ∃ op, json.read (ascii "op") = .ofString op ∧
    (stringToOP op = .TopicPublishOp ∧ json.read (ascii "topic") = .ofString name ∨
      (stringToOP op = .ServiceCallOp ∨ stringToOP op = .ServiceResponseOp) ∧
        json.read (ascii "service") = .ofString name)

/-- A field that `listen` has read as a string was there before. -/
theorem touch_of_string {json : Object} {key name : Bytes} (field : json.read key = .ofString name) :
    json.touch key = json :=
  Object.touch_of_read (by rw [field]; exact Value.ofString_ne_null name)

theorem named_run {isOP : OP → Bool} {key : String} {listeners : Listeners} {u : Unserializer} {op : OP}
    (known : u.typeOf = .ok op) (allowed : isOP op = true) :
    ((do deliver listeners (← guarded isOP Value.getString key) : Access Pushes) u).1 =
      ((u.json.read (ascii key)).getString.map some).map (deliveries listeners u) := by
  obtain ⟨name, field, -⟩ := typeOf_ok.mp known
  have untouched := touch_of_string field
  rw [bind_run, guarded, bind_run, type_run, known, untouched]
  simp only [allowed, Bool.not_true, Bool.false_eq_true, ↓reduceIte]
  rw [get_run]
  cases value : (u.json.read (ascii key)).getString with
  | error e => rfl
  | ok target =>
    simp only [touch_of_string (Value.getString_ok.mp value)]
    rfl

theorem dispatch_run (listeners : Listeners) (u : Unserializer) :
    (dispatch listeners u).1 = (route u).map (deliveries listeners u) := by
  unfold dispatch route
  rw [bind_run, type_run]
  cases known : u.typeOf with
  | error e => rfl
  | ok op =>
    obtain ⟨name, field, -⟩ := typeOf_ok.mp known
    rw [touch_of_string field]
    cases op with
    | TopicPublishOp => exact named_run known rfl
    | ServiceCallOp => exact named_run known rfl
    | ServiceResponseOp => exact named_run known rfl
    | _ => rfl

theorem listen_ok {picojson : Picojson} {listeners : Listeners} {data : Bytes} {pushes : Pushes} :
    listen picojson listeners data = .ok pushes ↔
      ∃ u target, Unserializer.new picojson data = .ok u ∧ route u = .ok target ∧
        pushes = deliveries listeners u target := by
  unfold listen
  cases Unserializer.new picojson data with
  | error e => simp [bind, Except.bind]
  | ok u =>
    rw [show (Except.ok u >>= fun u => (dispatch listeners u).1) = (dispatch listeners u).1 from rfl,
      dispatch_run]
    cases routed : route u with
    | error e => simp [routed, Except.map]
    | ok target => simp [routed, Except.map, eq_comm]

theorem map_getString_ok {v : Value} {name : Bytes} :
    v.getString.map some = .ok (some name) ↔ v = .ofString name := by
  rw [← Value.getString_ok]
  cases v.getString <;> simp [Except.map]

theorem route_some {json : Object} {name : Bytes} :
    route { json := json } = .ok (some name) ↔ Addressed json name := by
  constructor
  · intro routed
    unfold route at routed
    cases known : typeOf { json := json } with
    | error e => simp [known] at routed
    | ok op =>
      obtain ⟨text, field, same⟩ := typeOf_ok.mp known
      rw [known] at routed
      refine ⟨text, field, ?_⟩
      rw [same]
      cases op with
      | TopicPublishOp => exact .inl ⟨rfl, map_getString_ok.mp routed⟩
      | ServiceCallOp => exact .inr ⟨.inl rfl, map_getString_ok.mp routed⟩
      | ServiceResponseOp => exact .inr ⟨.inr rfl, map_getString_ok.mp routed⟩
      | _ => simp at routed
  · rintro ⟨text, field, published | served⟩
    · have known := typeOf_ok.mpr ⟨text, field, published.1⟩
      rw [route, known]
      exact map_getString_ok.mpr published.2
    · obtain ⟨call | response, field'⟩ := served
      · have known := typeOf_ok.mpr ⟨text, field, call⟩
        rw [route, known]
        exact map_getString_ok.mpr field'
      · have known := typeOf_ok.mpr ⟨text, field, response⟩
        rw [route, known]
        exact map_getString_ok.mpr field'

def Routable (json : Object) : Prop :=
  ∃ op, json.read (ascii "op") = .ofString op ∧
    (stringToOP op = .TopicPublishOp → ∃ name, json.read (ascii "topic") = .ofString name) ∧
    (stringToOP op = .ServiceCallOp ∨ stringToOP op = .ServiceResponseOp →
      ∃ name, json.read (ascii "service") = .ofString name)

theorem route_ok {json : Object} : (∃ name, route { json := json } = .ok name) ↔ Routable json := by
  have target (key : String) : (∃ name, (json.read (ascii key)).getString.map some = .ok name) ↔
      ∃ name, json.read (ascii key) = .ofString name := by
    simp only [← Value.getString_ok]
    cases (json.read (ascii key)).getString <;> simp [Except.map]
  constructor
  · rintro ⟨name, routed⟩
    unfold route at routed
    cases known : typeOf { json := json } with
    | error e => simp [known] at routed
    | ok op =>
      obtain ⟨text, field, same⟩ := typeOf_ok.mp known
      rw [known] at routed
      refine ⟨text, field, ?_⟩
      rw [same]
      cases op with
      | TopicPublishOp => exact ⟨fun _ => (target "topic").mp ⟨name, routed⟩, by simp⟩
      | ServiceCallOp => exact ⟨by simp, fun _ => (target "service").mp ⟨name, routed⟩⟩
      | ServiceResponseOp => exact ⟨by simp, fun _ => (target "service").mp ⟨name, routed⟩⟩
      | _ => simp
  · rintro ⟨text, field, topic, service⟩
    have known := typeOf_ok.mpr ⟨text, field, rfl⟩
    rw [route, known]
    cases op : stringToOP text with
    | TopicPublishOp => exact (target "topic").mpr (topic op)
    | ServiceCallOp => exact (target "service").mpr (service (.inl op))
    | ServiceResponseOp => exact (target "service").mpr (service (.inr op))
    | _ => exact ⟨none, rfl⟩

/-! ### Which texts `listen` survives -/

/-- `listen` returns for exactly the texts that picojson makes an object of, well formed or not,
with a string in `op` and in the field that its operation is delivered by. -/
theorem listen_returns_iff (picojson : Picojson) (listeners : Listeners) (data : Bytes) :
    (∃ pushes, listen picojson listeners data = .ok pushes) ↔
      ∃ json err, picojson.parse data = .ok (.ofObject json, err) ∧ Routable json := by
  constructor
  · rintro ⟨pushes, returned⟩
    obtain ⟨u, target, built, routed, -⟩ := listen_ok.mp returned
    obtain ⟨json, err, parsed, rfl⟩ := new_ok.mp built
    exact ⟨json, err, parsed, route_ok.mp ⟨target, routed⟩⟩
  · rintro ⟨json, err, parsed, routable⟩
    obtain ⟨target, routed⟩ := route_ok.mpr routable
    exact ⟨_, listen_ok.mpr ⟨_, target, new_ok.mpr ⟨json, err, parsed, rfl⟩, routed, rfl⟩⟩

/-- No object, no operation, no topic, and an operation that is not a string. -/
theorem listen_throws :
    (¬ ∃ pushes, listen picojson.package .none (ascii "hello") = .ok pushes) ∧
      (¬ ∃ pushes, listen picojson.package .none (ascii "\x7b\x7d") = .ok pushes) ∧
      (¬ ∃ pushes, listen picojson.package .none
          (ascii "\x7b\"op\":\"publish\",\"msg\":\x7b\x7d\x7d") = .ok pushes) ∧
      ¬ ∃ pushes, listen picojson.package .none (ascii "\x7b\"op\":7\x7d") = .ok pushes := by
  have throws {data : Bytes} (threw : (listen picojson.package .none data).isOk = false) :
      ¬ ∃ pushes, listen picojson.package .none data = .ok pushes := by
    rintro ⟨pushes, returned⟩
    simp [returned, Except.isOk, Except.toBool] at threw
  exact ⟨throws (by decide +kernel), throws (by decide +kernel), throws (by decide +kernel),
    throws (by decide +kernel)⟩

/-- A text with a syntax error is delivered exactly when what was read before the error is a message
for a queue. -/
theorem syntax_error_pushes_nothing_iff {picojson : Picojson} {data err : Bytes} {v : Value}
    (listeners : Listeners) (parsed : picojson.parse data = .ok (v, err)) (_broken : err ≠ []) :
    (∀ pushes, listen picojson listeners data = .ok pushes → pushes = []) ↔
      ¬ ∃ json name, v = .ofObject json ∧ Addressed json name ∧ listeners name ≠ [] := by
  constructor
  · rintro silent ⟨json, name, rfl, addressed, queues⟩
    have returned : listen picojson listeners data =
        .ok (deliveries listeners { json := json } (some name)) :=
      listen_ok.mpr ⟨_, some name, new_ok.mpr ⟨json, err, parsed, rfl⟩, route_some.mpr addressed, rfl⟩
    have nothing := silent _ returned
    simp only [deliveries, List.map_eq_nil_iff] at nothing
    exact queues nothing
  · intro unread pushes returned
    obtain ⟨u, target, built, routed, rfl⟩ := listen_ok.mp returned
    obtain ⟨json, err', parsed', rfl⟩ := new_ok.mp built
    obtain rfl : v = .ofObject json := by
      rw [parsed] at parsed'
      exact (Prod.mk.inj (Except.ok.inj parsed')).1
    cases target with
    | none => rfl
    | some name =>
      by_contra pushed
      refine unread ⟨json, name, rfl, route_some.mp routed, fun none => pushed ?_⟩
      simp [deliveries, none]

/-- A publication of an empty message, cut off before its last brace. -/
def truncated : Bytes := ascii "\x7b\"op\":\"publish\",\"topic\":\"/t\",\"msg\":\x7b\x7d"

/-- Those who listen to its topic are given what was read of it, and nobody else. -/
theorem syntax_error_pushes_nothing_iff_truncated :
    (¬ ∀ pushes, listen picojson.package (Listeners.none.attach 0 (ascii "/t")) truncated = .ok pushes →
      pushes = []) ∧
    ∀ pushes, listen picojson.package (Listeners.none.attach 0 (ascii "/u")) truncated = .ok pushes →
      pushes = [] := by
  let publication : Object :=
    ((Object.empty.insert (ascii "op") (.ofString (ascii "publish"))).insert (ascii "topic")
      (.ofString (ascii "/t"))).insert (ascii "msg") (.ofObject .empty)
  have parsed : picojson.package.parse truncated =
      .ok (.ofObject publication, ascii "syntax error at line 1 near: ") := by decide +kernel
  have op : publication.read (ascii "op") = .ofString (ascii "publish") := by decide +kernel
  have topic : publication.read (ascii "topic") = .ofString (ascii "/t") := by decide +kernel
  have publishes : stringToOP (ascii "publish") = .TopicPublishOp := by decide +kernel
  constructor
  · rw [syntax_error_pushes_nothing_iff _ parsed (by decide), not_not]
    exact ⟨publication, ascii "/t", rfl, ⟨_, op, .inl ⟨publishes, topic⟩⟩, by decide⟩
  · refine (syntax_error_pushes_nothing_iff _ parsed (by decide)).mpr ?_
    rintro ⟨json, name, same, ⟨word, field, target⟩, queues⟩
    obtain rfl : publication = json := Except.ok.inj (congrArg Value.getObject same)
    obtain rfl := Value.ofString_injective (op.symm.trans field)
    rcases target with ⟨-, named⟩ | ⟨called | answered, -⟩
    · obtain rfl := Value.ofString_injective (topic.symm.trans named)
      exact queues (by decide)
    · rw [publishes] at called
      cases called
    · rw [publishes] at answered
      cases answered

theorem truncated_is_delivered :
    (∃ v err, picojson.parse truncated = .ok (v, err) ∧ err ≠ []) ∧
      ∃ u, listen picojson.package (Listeners.none.attach 0 (ascii "/t")) truncated = .ok [(0, u)] := by
  have parsed : (picojson.parse truncated).toOption.map (fun result => result.2.isEmpty) =
      some false := by decide +kernel
  have pushed : (listen picojson.package (Listeners.none.attach 0 (ascii "/t")) truncated).toOption.map
      (List.map Prod.fst) = some [0] := by decide +kernel
  constructor
  · cases result : picojson.parse truncated with
    | error e => simp [result, Except.toOption] at parsed
    | ok result' =>
      obtain ⟨v, err⟩ := result'
      refine ⟨v, err, rfl, ?_⟩
      rintro rfl
      simp [result, Except.toOption] at parsed
  · cases result : listen picojson.package (Listeners.none.attach 0 (ascii "/t")) truncated with
    | error e => simp [result, Except.toOption] at pushed
    | ok pushes =>
      rw [result] at pushed
      obtain ⟨push, rest, rfl, same, none⟩ := List.map_eq_cons_iff.mp (Option.some.inj pushed)
      obtain rfl := List.map_eq_nil_iff.mp none
      exact ⟨push.2, by rw [← same]⟩

end Rosbridge
