import Mathlib.Data.List.Induction
import Rosbridge.Op

/-!
# Outgoing messages (`serializer.h`)

The constructors take the id as an argument where the source draws it with `unique()`. What the
library uses of the JSON package is `Picojson`: `parse` throws, or fills a value and returns its
error text; `serialize` prints a value.
-/

namespace Rosbridge

structure Picojson where
  parse : Bytes → Except Exn (Value × Bytes)
  serialize : Value → Bytes

/-- `picojson::value::to_str`, which prints what is not a string or a container as `serialize`
does. -/
def Value.to_str (picojson : Picojson) (v : Value) : Bytes :=
  match v.raw with
  | .string s => s
  | .array _ => ascii "array"
  | .object _ => ascii "object"
  | _ => picojson.serialize v

/-- `rosbridge_client_cpp::to_string(picojson::object)` -/
def Object.to_string (picojson : Picojson) (json : Object) : Bytes :=
  picojson.serialize (.ofObject json)

abbrev keys_values_t := List (Bytes × Bytes)

def to_json (keys_values : keys_values_t) : Object :=
  keys_values.foldl (fun json key_value => json.insert key_value.1 (.ofString key_value.2)) .empty

structure Serializer where
  json : Object

namespace Serializer

def new (op : OP) (id : Bytes) : Serializer where
  json := (Object.empty.insert (ascii "op") (.ofString op.to_string)).insert (ascii "id") (.ofString id)

/-- `this->json[key] = value` in the constructor of a subclass. -/
def set (s : Serializer) (key : String) (value : Value) : Serializer where
  json := s.json.insert (ascii key) value

def id (picojson : Picojson) (s : Serializer) : Bytes := (s.json.read (ascii "id")).to_str picojson

def serialized (picojson : Picojson) (s : Serializer) : Bytes := s.json.to_string picojson

def topicAdvertise (topic type id : Bytes) : Serializer :=
  ((new .TopicAdvertiseOp id).set "topic" (.ofString topic)).set "type" (.ofString type)

def topicUnadvertise (topic id : Bytes) : Serializer :=
  (new .TopicUnadvertiseOp id).set "topic" (.ofString topic)

def topicMessage (topic : Bytes) (msg : Object) (id : Bytes) : Serializer :=
  ((new .TopicPublishOp id).set "topic" (.ofString topic)).set "msg" (.ofObject msg)

def topicSubscribe (topic type : Bytes) (queue_length : Int32) (id : Bytes) : Serializer :=
  (((new .TopicSubscribeOp id).set "topic" (.ofString topic)).set "type" (.ofString type)).set
    "queue_length" (.ofDouble (.ofInt32 queue_length))

def topicUnsubscribe (topic id : Bytes) : Serializer :=
  (new .TopicUnsubscribeOp id).set "topic" (.ofString topic)

def serviceAdvertise (service type id : Bytes) : Serializer :=
  ((new .ServiceAdvertiseOp id).set "service" (.ofString service)).set "type" (.ofString type)

def serviceUnadvertise (service id : Bytes) : Serializer :=
  (new .ServiceUnadvertiseOp id).set "service" (.ofString service)

def serviceRequest (service : Bytes) (args : Object) (id : Bytes) : Serializer :=
  ((new .ServiceCallOp id).set "service" (.ofString service)).set "args" (.ofObject args)

def serviceResponse (service : Bytes) (values : Object) (result : Bool) (id : Bytes) : Serializer :=
  (((new .ServiceResponseOp id).set "service" (.ofString service)).set "result"
    (.ofBool result)).set "values" (.ofObject values)

/-! ### Reading the fields back -/

@[simp] theorem read_new_op (op : OP) (id : Bytes) :
    (new op id).json.read (ascii "op") = .ofString op.to_string := by
  rw [new, Object.read_insert_of_ne _ _ (by decide), Object.read_insert_self]

@[simp] theorem read_new_id (op : OP) (id : Bytes) :
    (new op id).json.read (ascii "id") = .ofString id := by
  rw [new, Object.read_insert_self]

@[simp] theorem read_set_self (s : Serializer) (key : String) (value : Value) :
    (s.set key value).json.read (ascii key) = value := Object.read_insert_self _ _ _

theorem read_set_of_ne (s : Serializer) {key other : String} (value : Value)
    (different : ascii other ≠ ascii key) :
    (s.set key value).json.read (ascii other) = s.json.read (ascii other) :=
  Object.read_insert_of_ne _ _ different

theorem id_eq (picojson : Picojson) {s : Serializer} {id : Bytes}
    (field : s.json.read (ascii "id") = .ofString id) : s.id picojson = id := by
  rw [Serializer.id, field]
  rfl

end Serializer

/-- `to_json` keeps each key once, with the value it was last given. -/
theorem find?_to_json (keys_values : keys_values_t) (key : Bytes) :
    (to_json keys_values).find? key =
      (keys_values.filter (fun key_value => key_value.1 = key)).getLast?.map
        (fun key_value => .ofString key_value.2) := by
  unfold to_json
  induction keys_values using List.reverseRecOn with
  | nil => rfl
  | append_singleton before last ih =>
    rw [List.foldl_append, List.foldl_cons, List.foldl_nil, Object.find?_insert, List.filter_append]
    by_cases same : key = last.1
    · subst same
      simp
    · simp [same, Ne.symm same, ih]

end Rosbridge
