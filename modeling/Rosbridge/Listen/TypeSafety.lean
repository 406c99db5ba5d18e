import Rosbridge.Listen.Net

/-!
# What the callbacks see

All endpoints of a client are attached in one map from names to queues, whatever their kind, and a
receiver thread does not look at the operation of a message. A callback sees what its endpoint was
made for as long as no message carries the name of an endpoint of another kind.
-/

namespace Rosbridge.Listen

open Unserializer

namespace Receiver

/-- The operation the endpoint was made for. -/
def expects : Receiver → Unserializer → Bool
  | subscriber _, u => u.typeOf = .ok .TopicPublishOp
  | serviceServer _, u => u.typeOf = .ok .ServiceCallOp
  | serviceClient _, _ => true

/-- The callback is given the `msg` of a publication on the topic, or the `args` of a call of the
service. -/
def Delivers : Receiver → Unserializer → Object → Prop
  | subscriber s, u, payload => u.typeOf = .ok .TopicPublishOp ∧ u.topicOf = .ok s.topic ∧
      u.json.read (ascii "msg") = .ofObject payload
  | serviceServer s, u, payload => u.typeOf = .ok .ServiceCallOp ∧ u.serviceOf = .ok s.service ∧
      u.json.read (ascii "args") = .ofObject payload
  | serviceClient _, _, _ => True

end Receiver

namespace Net

/-- Every callback saw what its endpoint was made for, and a server answers nothing else. -/
def TypeSafe (net : Net) : Prop :=
  ∀ r ∈ net.receivers,
    (∀ x payload, .called x payload ∈ r.2.log → r.1.Delivers x.msg payload) ∧
    ∀ x msg, .responded x msg ∈ r.2.log → r.1.expects x.msg = true

/-- A message with a payload has the name of an endpoint that was made for another operation. -/
def Collides (picojson : Picojson) (net : Net) (data : Bytes) : Bool :=
  match Unserializer.new picojson data with
  | .error _ => false
  | .ok u =>
    match route u with
    | .ok (some name) =>
      net.receivers.any fun r => r.1.name = name && !r.1.expects u && (u.payload).1.isOk
    | _ => false

def NoCollision (picojson : Picojson) (net : Net) : Event → Bool
  | .inbound data => !Collides picojson net data
  | _ => true

end Net

/-! ### What a thread hands over came in -/

structure Holds (P : Unserializer → Prop) (s : State) : Prop where
  queued : ∀ x ∈ s.queue.q, P x.msg
  taken : ∀ x, s.pc.taken = some x → P x.msg
  begun : ∀ x payload, s.pc = .callback x payload → (x.msg.payload).1 = .ok payload
  called : ∀ x payload, .called x payload ∈ s.log → P x.msg ∧ (x.msg.payload).1 = .ok payload
  responded : ∀ x msg, .responded x msg ∈ s.log → P x.msg ∧ ∃ payload, (x.msg.payload).1 = .ok payload

theorem holds_start (P : Unserializer → Prop) (queue_size : Int32) : Holds P (start queue_size) := by
  constructor <;> simp [start, ListenerQueue.new, Pc.taken]

theorem holds_push {P : Unserializer → Prop} {s : State} (h : Holds P s) {msg : Unserializer}
    (meets : P msg) : Holds P (push s msg) where
  queued x member := by
    rcases ListenerQueue.mem_push_q member with old | rfl
    · exact h.queued x old
    · exact meets
  taken := h.taken
  begun := h.begun
  called x payload member := h.called x payload (by simpa [push] using member)
  responded x out member := h.responded x out (by simpa [push] using member)

theorem holds_moves {P : Unserializer → Prop} {s : State} (h : Holds P s) {pc : Pc}
    (taken : ∀ x, pc.taken = some x → P x.msg)
    (begun : ∀ x payload, pc = .callback x payload → (x.msg.payload).1 = .ok payload) :
    Holds P { s with pc := pc } where
  queued := h.queued
  taken := taken
  begun := begun
  called := h.called
  responded := h.responded

theorem holds_listener {P : Unserializer → Prop} {kind : Kind} {s : State} (h : Holds P s)
    (returned : Option Object) : Holds P (listener kind s returned) := by
  have moves := listener_moves kind s returned
  generalize listener kind s returned = t at moves
  have rest {pc : Pc} (none : pc.taken = none) : Holds P { s with pc := pc } := by
    refine holds_moves h (by simp [none]) ?_
    rintro x payload rfl
    cases none
  have keep {t : State} {x : Letter} (holds : Holds P t) (held : t.pc.taken = some x) :
      Holds P { t with pc := .pop x } := by
    refine holds_moves holds ?_ (by simp)
    rintro y ⟨⟩
    exact holds.taken x held
  cases moves with
  | stays => exact h
  | rests before after => exact rest after
  | reads x pc next =>
    refine holds_moves h (fun y taken => ?_) (by simp)
    obtain rfl : x = y := by simpa [Pc.taken] using taken
    exact h.queued x (List.mem_of_head? next)
  | calls x payload pc value =>
    have meets : P x.msg := h.taken x (by rw [pc]; rfl)
    refine ⟨h.queued, ?_, ?_, fun y payload' member => ?_, fun y out member => ?_⟩
    · rintro y ⟨⟩
      exact meets
    · rintro y payload' ⟨⟩
      exact value
    · simp only [List.mem_append, List.mem_singleton, Entry.called.injEq] at member
      rcases member with old | ⟨rfl, rfl⟩
      · exact h.called y payload' old
      · exact ⟨meets, value⟩
    · exact h.responded y out (by simpa using member)
  | drops x service e server pc thrown => exact keep h (by rw [pc]; rfl)
  | returns x payload pc => exact keep h (by rw [pc]; rfl)
  | answers x payload msg pc =>
    have meets : P x.msg := h.taken x (by rw [pc]; rfl)
    have answered : Holds P { s with log := s.log ++ [.responded x msg] } := by
      refine ⟨h.queued, h.taken, h.begun, fun y payload' member => ?_, fun y out member => ?_⟩
      · exact h.called y payload' (by simpa using member)
      · simp only [List.mem_append, List.mem_singleton, Entry.responded.injEq] at member
        rcases member with old | ⟨rfl, rfl⟩
        · exact h.responded y out old
        · exact ⟨meets, payload, h.begun y payload pc⟩
    exact keep answered (show s.pc.taken = some x by rw [pc]; rfl)
  | terminates x held => exact rest rfl
  | pops x removed queue pc next pop =>
    obtain ⟨y, others, contents, rfl⟩ := ListenerQueue.pop_cases pop
    refine ⟨fun z member => h.queued z ?_, by simp [Pc.taken], by simp, fun z payload member => ?_,
      fun z out member => ?_⟩
    · rw [contents]
      exact List.mem_cons_of_mem _ member
    · exact h.called z payload (by simpa using member)
    · exact h.responded z out (by simpa using member)
  | stuck x pc empty => exact rest rfl

theorem holds_step {P : Unserializer → Prop} {kind : Kind} {s : State} (h : Holds P s)
    {e : Event} (other : ∀ msg, e ≠ .push msg) : Holds P (step kind s e) := by
  unfold step
  split
  · exact h
  · exact absurd rfl (other _)
  · exact ⟨h.queued, h.taken, h.begun, h.called, h.responded⟩
  · exact holds_listener h _

/-! ### The invariant of the client -/

namespace Net

/-- A message that a callback of this endpoint could see is one it was made for. -/
def Fit (r : Receiver) (u : Unserializer) : Prop :=
  ∀ payload, (u.payload).1 = .ok payload → r.expects u = true ∧ r.Delivers u payload

structure Typed (net : Net) : Prop where
  wired : Wired net
  fit : Each (fun r s => Holds (Fit r) s) net

theorem Typed.typeSafe {net : Net} (h : Typed net) : TypeSafe net := by
  intro r member
  refine ⟨fun x payload called => ?_, fun x msg responded => ?_⟩
  · obtain ⟨fit, value⟩ := (h.fit r member).called x payload called
    exact (fit payload value).2
  · obtain ⟨fit, payload, value⟩ := (h.fit r member).responded x msg responded
    exact (fit payload value).1

theorem delivers_of_expects {r : Receiver} {u : Unserializer} {payload : Object}
    (routed : route u = .ok (some r.name)) (expected : r.expects u = true)
    (value : (u.payload).1 = .ok payload) : r.Delivers u payload := by
  rw [(payload_yields u).1] at value
  cases r with
  | subscriber s =>
    have known : u.typeOf = .ok .TopicPublishOp := by simpa [Receiver.expects] using expected
    rw [route, known] at routed
    rw [payloadOf, known] at value
    have named : u.json.read (ascii "topic") = .ofString s.topic := map_getString_ok.mp routed
    exact ⟨known, by simp [topicOf, guardedOf, known, isTopicOP, named], Value.getObject_ok.mp value⟩
  | serviceServer s =>
    have known : u.typeOf = .ok .ServiceCallOp := by simpa [Receiver.expects] using expected
    rw [route, known] at routed
    rw [payloadOf, known] at value
    have named : u.json.read (ascii "service") = .ofString s.service := map_getString_ok.mp routed
    exact ⟨known, by simp [serviceOf, guardedOf, known, isServiceOP, named], Value.getObject_ok.mp value⟩
  | serviceClient c => trivial

theorem fit_of_apart {picojson : Picojson} {net : Net} {data : Bytes} {u : Unserializer} {name : Bytes}
    (built : Unserializer.new picojson data = .ok u) (routed : route u = .ok (some name))
    (apart : Collides picojson net data = false) {r : Receiver × State} (member : r ∈ net.receivers)
    (named : r.1.name = name) : Fit r.1 u := by
  intro payload value
  have expected : r.1.expects u = true := by
    simp only [Collides, built, routed, List.any_eq_false] at apart
    have here := apart r member
    simpa [named, value, Except.isOk, Except.toBool] using here
  exact ⟨expected, delivers_of_expects (named ▸ routed) expected value⟩

theorem typed_start : Typed {} := ⟨wired_start, by simp [Each]⟩

theorem typed_step {picojson : Picojson} {net : Net} {e : Event} (h : Typed net)
    (apart : NoCollision picojson net e = true) : Typed (step picojson net e) := by
  refine ⟨wired_step h.wired picojson e, each_step h.wired h.fit (fun r => holds_start _ _) ?_ ?_⟩
  · intro data u r s inbound built routed member holds
    subst inbound
    have quiet : Collides picojson net data = false := by simpa [NoCollision] using apart
    obtain ⟨pair, present, rfl⟩ := List.mem_map.mp member
    exact holds_push holds (fit_of_apart built routed quiet present rfl)
  · intro r kind s e' _ other holds
    exact holds_step holds other

/-- Callbacks see what they were made for, as long as no message has the name of an endpoint that
was made for another operation. -/
theorem dispatch_is_type_safe {picojson : Picojson} {events : List Event}
    (apart : Machine.Along (step picojson) (fun net e => NoCollision picojson net e = true) {} events) :
    TypeSafe (run picojson {} events) := by
  have typed : Typed (run picojson {} events) :=
    Machine.invariant_along (fun _ _ => typed_step) typed_start apart
  exact typed.typeSafe

def inbound (s : Serializer) : Event := .inbound (s.serialized picojson.package)

def listens (i : Nat) : List Event := List.replicate 6 (.listener i (some .empty))

def subscriber (topic : String) : Receiver := .subscriber { topic := ascii topic, type := [] }

def server (service : String) : Receiver := .serviceServer { service := ascii service, type := [] }

def client (service : String) : Receiver := .serviceClient { service := ascii service }

def publication (topic : String) : Event := inbound (.topicMessage (ascii topic) .empty (ascii "1"))

def request (service : String) : Event := inbound (.serviceRequest (ascii service) .empty (ascii "1"))

def answer (service : String) : Event :=
  inbound (.serviceResponse (ascii service) .empty true (ascii "1"))

/-- A server and a client of different services, and a topic. -/
def distinct : List Event :=
  [.attach (subscriber "/t"), .attach (server "/add"), .attach (client "/sub"), publication "/t",
    request "/add", answer "/sub"] ++ listens 0 ++ listens 1 ++ [.destroy 0]

theorem dispatch_is_type_safe_distinct :
    Machine.Along (step picojson.package) (fun net e => NoCollision picojson.package net e = true) {}
        distinct ∧
      TypeSafe (run picojson.package {} distinct) := by
  have apart : Machine.Along (step picojson.package)
      (fun net e => NoCollision picojson.package net e = true) {} distinct := by decide +kernel
  exact ⟨apart, dispatch_is_type_safe apart⟩

/-- A service with the name of a topic, a server and a client of one service, and a topic with the
name of a service. -/
def callOnTopic : List Event := [.attach (subscriber "/x"), request "/x"] ++ listens 0

def answerToServer : List Event :=
  [.attach (server "/add"), .attach (client "/add"), answer "/add"] ++ listens 0

def publicationToServer : List Event := [.attach (server "/add"), publication "/add"] ++ listens 0

def misses (r : Receiver) : Entry → Bool
  | .called x _ => !r.expects x.msg
  | .responded x _ => !r.expects x.msg
  | _ => false

theorem expects_of_delivers {r : Receiver} {u : Unserializer} {payload : Object}
    (delivers : r.Delivers u payload) : r.expects u = true := by
  cases r with
  | subscriber s => exact decide_eq_true delivers.1
  | serviceServer s => exact decide_eq_true delivers.1
  | serviceClient c => rfl

theorem not_typeSafe_of_misses {net : Net}
    (missed : (net.receivers.any fun r => r.2.log.any (misses r.1)) = true) : ¬ TypeSafe net := by
  intro safe
  obtain ⟨r, present, found⟩ := List.any_eq_true.mp missed
  obtain ⟨entry, logged, wrong⟩ := List.any_eq_true.mp found
  obtain ⟨called, responded⟩ := safe r present
  cases entry with
  | called x payload =>
    have expected := expects_of_delivers (called x payload logged)
    simp [misses, expected] at wrong
  | responded x msg =>
    have expected := responded x msg logged
    simp [misses, expected] at wrong
  | _ => cases wrong

theorem mistaken_is_handed_over :
    ¬ TypeSafe (run picojson.package {} callOnTopic) ∧
      ¬ TypeSafe (run picojson.package {} answerToServer) ∧
      ¬ TypeSafe (run picojson.package {} publicationToServer) := by
  refine ⟨not_typeSafe_of_misses ?_, not_typeSafe_of_misses ?_, not_typeSafe_of_misses ?_⟩ <;>
    decide +kernel

end Net

end Rosbridge.Listen
