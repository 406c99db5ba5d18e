import Rosbridge.Picojson.Serialize
import Rosbridge.Unserializer

/-!
# Decoding undoes encoding

The two classes agree only through field names and operation names. Each accessor is also read in
a message that other accessors have already looked into.
-/

namespace Rosbridge

/-- The arguments of the nine constructors of `serializer.h`. -/
inductive Message where
  | topicAdvertise (topic type id : Bytes)
  | topicUnadvertise (topic id : Bytes)
  | topicMessage (topic : Bytes) (msg : Object) (id : Bytes)
  | topicSubscribe (topic type : Bytes) (queue_length : Int32) (id : Bytes)
  | topicUnsubscribe (topic id : Bytes)
  | serviceAdvertise (service type id : Bytes)
  | serviceUnadvertise (service id : Bytes)
  | serviceRequest (service : Bytes) (args : Object) (id : Bytes)
  | serviceResponse (service : Bytes) (values : Object) (result : Bool) (id : Bytes)

namespace Message

def serializer : Message → Serializer
  | topicAdvertise topic type id => .topicAdvertise topic type id
  | topicUnadvertise topic id => .topicUnadvertise topic id
  | topicMessage topic msg id => .topicMessage topic msg id
  | topicSubscribe topic type queue_length id => .topicSubscribe topic type queue_length id
  | topicUnsubscribe topic id => .topicUnsubscribe topic id
  | serviceAdvertise service type id => .serviceAdvertise service type id
  | serviceUnadvertise service id => .serviceUnadvertise service id
  | serviceRequest service args id => .serviceRequest service args id
  | serviceResponse service values result id => .serviceResponse service values result id

def op : Message → OP
  | topicAdvertise _ _ _ => .TopicAdvertiseOp
  | topicUnadvertise _ _ => .TopicUnadvertiseOp
  | topicMessage _ _ _ => .TopicPublishOp
  | topicSubscribe _ _ _ _ => .TopicSubscribeOp
  | topicUnsubscribe _ _ => .TopicUnsubscribeOp
  | serviceAdvertise _ _ _ => .ServiceAdvertiseOp
  | serviceUnadvertise _ _ => .ServiceUnadvertiseOp
  | serviceRequest _ _ _ => .ServiceCallOp
  | serviceResponse _ _ _ _ => .ServiceResponseOp

def id : Message → Bytes
  | topicAdvertise _ _ id => id
  | topicUnadvertise _ id => id
  | topicMessage _ _ id => id
  | topicSubscribe _ _ _ id => id
  | topicUnsubscribe _ id => id
  | serviceAdvertise _ _ id => id
  | serviceUnadvertise _ id => id
  | serviceRequest _ _ id => id
  | serviceResponse _ _ _ id => id

def name : Message → Bytes
  | topicAdvertise topic _ _ => topic
  | topicUnadvertise topic _ => topic
  | topicMessage topic _ _ => topic
  | topicSubscribe topic _ _ _ => topic
  | topicUnsubscribe topic _ => topic
  | serviceAdvertise service _ _ => service
  | serviceUnadvertise service _ => service
  | serviceRequest service _ _ => service
  | serviceResponse service _ _ _ => service

def payload : Message → Object
  | topicMessage _ msg _ => msg
  | serviceRequest _ args _ => args
  | serviceResponse _ values _ _ => values
  | _ => .empty

def result? : Message → Option Bool
  | serviceResponse _ _ result _ => some result
  | _ => none

end Message

/-! ### The fields that are written -/

open Serializer in
theorem read_op (m : Message) : m.serializer.json.read (ascii "op") = .ofString m.op.to_string := by
  cases m <;> simp (disch := decide) only [Message.serializer, Message.op, topicAdvertise,
    topicUnadvertise, topicMessage, topicSubscribe, topicUnsubscribe, serviceAdvertise,
    serviceUnadvertise, serviceRequest, serviceResponse, read_set_of_ne, read_new_op]

open Serializer in
theorem read_id (m : Message) : m.serializer.json.read (ascii "id") = .ofString m.id := by
  cases m <;> simp (disch := decide) only [Message.serializer, Message.id, topicAdvertise,
    topicUnadvertise, topicMessage, topicSubscribe, topicUnsubscribe, serviceAdvertise,
    serviceUnadvertise, serviceRequest, serviceResponse, read_set_of_ne, read_new_id]

open Serializer in
theorem read_topic {m : Message} (onTopic : isTopicOP m.op = true) :
    m.serializer.json.read (ascii "topic") = .ofString m.name := by
  cases m with
  | topicAdvertise topic type id =>
    simp (disch := decide) only [Message.serializer, Message.name, topicAdvertise, read_set_of_ne,
      read_set_self]
  | topicUnadvertise topic id => exact read_set_self _ _ _
  | topicMessage topic msg id =>
    simp (disch := decide) only [Message.serializer, Message.name, topicMessage, read_set_of_ne,
      read_set_self]
  | topicSubscribe topic type queue_length id =>
    simp (disch := decide) only [Message.serializer, Message.name, topicSubscribe, read_set_of_ne,
      read_set_self]
  | topicUnsubscribe topic id => exact read_set_self _ _ _
  | _ => cases onTopic

open Serializer in
theorem read_service {m : Message} (ofService : isServiceOP m.op = true) :
    m.serializer.json.read (ascii "service") = .ofString m.name := by
  cases m with
  | serviceAdvertise service type id =>
    simp (disch := decide) only [Message.serializer, Message.name, serviceAdvertise, read_set_of_ne,
      read_set_self]
  | serviceUnadvertise service id => exact read_set_self _ _ _
  | serviceRequest service args id =>
    simp (disch := decide) only [Message.serializer, Message.name, serviceRequest, read_set_of_ne,
      read_set_self]
  | serviceResponse service values result id =>
    simp (disch := decide) only [Message.serializer, Message.name, serviceResponse, read_set_of_ne,
      read_set_self]
  | _ => cases ofService

theorem read_result {m : Message} {flag : Bool} (answer : m.result? = some flag) :
    m.serializer.json.read (ascii "result") = .ofBool flag := by
  cases m with
  | serviceResponse service values result id =>
    obtain rfl := Option.some.inj answer
    simp (disch := decide) only [Message.serializer, Serializer.serviceResponse,
      Serializer.read_set_of_ne, Serializer.read_set_self]
  | _ => cases answer

/-! ### What the accessors make of them -/

def Carries (u : Unserializer) (m : Message) : Prop :=
  ∀ key, u.json.read key = m.serializer.json.read key

namespace Carries

open Unserializer

variable {u : Unserializer} {m : Message}

theorem typeOf (h : Carries u m) : u.typeOf = .ok m.op :=
  typeOf_ok.mpr ⟨_, (h _).trans (read_op m), stringToOP_to_string m.op⟩

theorem idOf (h : Carries u m) : u.idOf = m.id := by
  rw [Unserializer.idOf, h, read_id]
  rfl

theorem topicOf (h : Carries u m) (onTopic : isTopicOP m.op = true) : u.topicOf = .ok m.name := by
  simp [Unserializer.topicOf, guardedOf, h.typeOf, onTopic, h (ascii "topic"), read_topic onTopic]

theorem serviceOf (h : Carries u m) (ofService : isServiceOP m.op = true) :
    u.serviceOf = .ok m.name := by
  simp [Unserializer.serviceOf, guardedOf, h.typeOf, ofService, h (ascii "service"),
    read_service ofService]

theorem resultOf (h : Carries u m) {flag : Bool} (answer : m.result? = some flag) :
    u.resultOf = .ok flag := by
  have response : m.op = .ServiceResponseOp := by
    cases m with
    | serviceResponse service values result id => rfl
    | _ => cases answer
  simp [Unserializer.resultOf, guardedOf, h.typeOf, response, h (ascii "result"), read_result answer]

theorem payloadOf (h : Carries u m) : u.payloadOf = .ok m.payload := by
  rw [Unserializer.payloadOf, h.typeOf]
  cases m with
  | topicMessage topic msg id =>
    show (u.json.read (ascii "msg")).getObject = .ok msg
    rw [h]
    exact congrArg Value.getObject (Serializer.read_set_self _ _ _)
  | serviceRequest service args id =>
    show (u.json.read (ascii "args")).getObject = .ok args
    rw [h]
    exact congrArg Value.getObject (Serializer.read_set_self _ _ _)
  | serviceResponse service values result id =>
    show (u.json.read (ascii "values")).getObject = .ok values
    rw [h]
    exact congrArg Value.getObject (Serializer.read_set_self _ _ _)
  | _ => rfl

end Carries

/-! ### There and back -/

theorem serializer_id (picojson : Picojson) (m : Message) : m.serializer.id picojson = m.id :=
  Serializer.id_eq picojson (read_id m)

/-- What the accessors return on a message, whichever were called on it before. -/
structure Decoded (picojson : Picojson) (m : Message) (u : Unserializer) : Prop where
  type : (u.type).1 = .ok m.op
  id : (u.id).1 = .ok (m.serializer.id picojson)
  topic : isTopicOP m.op = true → (u.topic).1 = .ok m.name
  service : isServiceOP m.op = true → (u.service).1 = .ok m.name
  payload : (u.payload).1 = .ok m.payload
  result : ∀ flag, m.result? = some flag → (u.result).1 = .ok flag

theorem decoded_of_carries (picojson : Picojson) {m : Message} {u : Unserializer} (h : Carries u m) :
    Decoded picojson m u where
  type := (Unserializer.type_yields u).1.trans h.typeOf
  id := by
    rw [(Unserializer.id_yields u).1, serializer_id]
    exact congrArg Except.ok h.idOf
  topic onTopic := (Unserializer.topic_yields u).1.trans (h.topicOf onTopic)
  service ofService := (Unserializer.service_yields u).1.trans (h.serviceOf ofService)
  payload := (Unserializer.payload_yields u).1.trans h.payloadOf
  result _ answer := (Unserializer.result_yields u).1.trans (h.resultOf answer)

/-- Every message is read as it was written, where picojson reads the object of the message as it
was written. A payload made by `to_json` has the given keys, each with its last value. -/
theorem decoding_undoes_encoding (picojson : Picojson) (m : Message)
    (back : picojson.parse (picojson.serialize (.ofObject m.serializer.json)) =
      .ok (.ofObject m.serializer.json, [])) :
    ∃ u, Unserializer.new picojson (m.serializer.serialized picojson) = .ok u ∧
      (∀ v, Unserializer.SameReads u v → Decoded picojson m v) ∧
      ∀ keys_values, m.payload = to_json keys_values →
        ∃ payload, (u.payload).1 = .ok payload ∧ ∀ key, payload.find? key =
          (keys_values.filter (fun key_value => key_value.1 = key)).getLast?.map
            (fun key_value => .ofString key_value.2) := by
  have carries : Carries { json := m.serializer.json } m := fun _ => rfl
  refine ⟨_, Unserializer.new_ok.mpr ⟨_, _, back, rfl⟩, fun v same => ?_, fun keys_values built => ?_⟩
  · exact decoded_of_carries picojson fun key => same key
  · exact ⟨_, (decoded_of_carries picojson carries).payload,
      by rw [built]; exact find?_to_json keys_values⟩

/-- A response with a nested payload. -/
def response : Message :=
  .serviceResponse (ascii "/add") (to_json [(ascii "sum", ascii "2"), (ascii "sum", ascii "3\n")]) true
    (ascii "7")

theorem decoding_undoes_encoding_response :
    picojson.parse (picojson.serialize (.ofObject response.serializer.json)) =
        .ok (.ofObject response.serializer.json, []) ∧
      ∃ u, Unserializer.new picojson.package (response.serializer.serialized picojson.package) = .ok u ∧
        (∀ v, Unserializer.SameReads u v → Decoded picojson.package response v) ∧
        ∀ keys_values, response.payload = to_json keys_values →
          ∃ payload, (u.payload).1 = .ok payload ∧ ∀ key, payload.find? key =
            (keys_values.filter (fun key_value => key_value.1 = key)).getLast?.map
              (fun key_value => .ofString key_value.2) := by
  have back : picojson.parse (picojson.serialize (.ofObject response.serializer.json)) =
      .ok (.ofObject response.serializer.json, []) := by decide +kernel
  exact ⟨back, decoding_undoes_encoding picojson.package response back⟩

end Rosbridge
