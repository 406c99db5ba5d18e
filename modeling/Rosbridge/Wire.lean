import Rosbridge.Picojson.ReadBack
import Rosbridge.RoundTrip

/-!
# Messages on the wire

With picojson as it is vendored: the text of every message that the library writes is read as that
message, and no two messages have the same text.
-/

namespace Rosbridge

open Unserializer

theorem new_serialized (s : Serializer) :
    Unserializer.new picojson.package (s.serialized picojson.package) = .ok { json := s.json } :=
  Unserializer.new_ok.mpr ⟨_, [], picojson.parse_serialize _, rfl⟩

namespace Message

def text (m : Message) : Bytes := m.serializer.serialized picojson.package

def unserializer (m : Message) : Unserializer where
  json := m.serializer.json

theorem new_text (m : Message) : Unserializer.new picojson.package m.text = .ok m.unserializer :=
  new_serialized m.serializer

theorem carries_unserializer (m : Message) : Carries m.unserializer m := fun _ => rfl

end Message

/-- The text of a message is accepted, its accessors return what the message was made of, whichever
were called before, and `data` prints the text again. -/
theorem message_is_read_back (m : Message) :
    ∃ u, Unserializer.new picojson.package m.text = .ok u ∧
      (∀ v, SameReads u v → Decoded picojson.package m v) ∧
      (data picojson.package u).1 = .ok m.text :=
  ⟨m.unserializer, m.new_text, fun _ same => decoded_of_carries _ fun key => same key, rfl⟩

/-! ### No two messages have the same text -/

namespace Message

def type? : Message → Option Bytes
  | topicAdvertise _ type _ => some type
  | topicSubscribe _ type _ _ => some type
  | serviceAdvertise _ type _ => some type
  | _ => none

def queue_length? : Message → Option Int32
  | topicSubscribe _ _ queue_length _ => some queue_length
  | _ => none

end Message

open Serializer in
theorem read_type {m : Message} {type : Bytes} (declares : m.type? = some type) :
    m.serializer.json.read (ascii "type") = .ofString type := by
  cases m with
  | topicAdvertise topic type' id =>
    obtain rfl := Option.some.inj declares
    exact read_set_self _ _ _
  | topicSubscribe topic type' queue_length id =>
    obtain rfl := Option.some.inj declares
    simp (disch := decide) only [Message.serializer, topicSubscribe, read_set_of_ne, read_set_self]
  | serviceAdvertise service type' id =>
    obtain rfl := Option.some.inj declares
    exact read_set_self _ _ _
  | _ => cases declares

theorem read_queue_length {m : Message} {queue_length : Int32} (sized : m.queue_length? = some queue_length) :
    m.serializer.json.read (ascii "queue_length") = .ofDouble (.ofInt32 queue_length) := by
  cases m with
  | topicSubscribe topic type queue_length' id =>
    obtain rfl := Option.some.inj sized
    exact Serializer.read_set_self _ _ _
  | _ => cases sized

theorem ofInt32_injective {n n' : Int32} (same : Value.ofDouble (.ofInt32 n) = .ofDouble (.ofInt32 n')) : n = n' := by
  have ⟨signs, magnitudes⟩ : (n.toInt < 0 ↔ n'.toInt < 0) ∧ |(n.toInt : ℚ)| = |(n'.toInt : ℚ)| := by
    simpa [Value.ofDouble, Double.ofInt32] using same
  have magnitudes : |n.toInt| = |n'.toInt| := by exact_mod_cast magnitudes
  refine Int32.toInt_inj.mp ?_
  grind

/-- A message is what its fields say. -/
theorem json_injective {m m' : Message} (same : m.serializer.json = m'.serializer.json) : m = m' := by
  have carries : Carries m.unserializer m' := fun key => by rw [Message.unserializer, same]
  have op : m.op = m'.op := Except.ok.inj (m.carries_unserializer.typeOf.symm.trans carries.typeOf)
  have id : m.id = m'.id := m.carries_unserializer.idOf.symm.trans carries.idOf
  have payload : m.payload = m'.payload :=
    Except.ok.inj (m.carries_unserializer.payloadOf.symm.trans carries.payloadOf)
  have topic (onTopic : isTopicOP m.op = true) : m.name = m'.name :=
    Except.ok.inj ((m.carries_unserializer.topicOf onTopic).symm.trans (carries.topicOf (op ▸ onTopic)))
  have service (ofService : isServiceOP m.op = true) : m.name = m'.name :=
    Except.ok.inj ((m.carries_unserializer.serviceOf ofService).symm.trans (carries.serviceOf (op ▸ ofService)))
  have type {type type' : Bytes} (declares : m.type? = some type) (declares' : m'.type? = some type') :
      type = type' :=
    Value.ofString_injective (by rw [← read_type declares, same, read_type declares'])
  cases m with
  | topicAdvertise name type₁ id₁ =>
    cases m' with
    | topicAdvertise name' type₂ id₂ =>
      rw [show name = name' from topic rfl, type rfl rfl, show id₁ = id₂ from id]
    | _ => cases op
  | topicUnadvertise name id₁ =>
    cases m' with
    | topicUnadvertise name' id₂ => rw [show name = name' from topic rfl, show id₁ = id₂ from id]
    | _ => cases op
  | topicMessage name msg id₁ =>
    cases m' with
    | topicMessage name' msg' id₂ =>
      rw [show name = name' from topic rfl, show msg = msg' from payload, show id₁ = id₂ from id]
    | _ => cases op
  | topicSubscribe name type₁ queue_length id₁ =>
    cases m' with
    | topicSubscribe name' type₂ queue_length' id₂ =>
      have lengths : queue_length = queue_length' := by
        refine ofInt32_injective ?_
        rw [← read_queue_length (m := .topicSubscribe name type₁ queue_length id₁) rfl, same,
          read_queue_length rfl]
      rw [show name = name' from topic rfl, type rfl rfl, lengths, show id₁ = id₂ from id]
    | _ => cases op
  | topicUnsubscribe name id₁ =>
    cases m' with
    | topicUnsubscribe name' id₂ => rw [show name = name' from topic rfl, show id₁ = id₂ from id]
    | _ => cases op
  | serviceAdvertise name type₁ id₁ =>
    cases m' with
    | serviceAdvertise name' type₂ id₂ =>
      rw [show name = name' from service rfl, type rfl rfl, show id₁ = id₂ from id]
    | _ => cases op
  | serviceUnadvertise name id₁ =>
    cases m' with
    | serviceUnadvertise name' id₂ => rw [show name = name' from service rfl, show id₁ = id₂ from id]
    | _ => cases op
  | serviceRequest name args id₁ =>
    cases m' with
    | serviceRequest name' args' id₂ =>
      rw [show name = name' from service rfl, show args = args' from payload, show id₁ = id₂ from id]
    | _ => cases op
  | serviceResponse name values flag id₁ =>
    cases m' with
    | serviceResponse name' values' flag' id₂ =>
      have flags : flag = flag' :=
        Except.ok.inj ((Carries.resultOf (Message.carries_unserializer _) rfl).symm.trans (carries.resultOf rfl))
      rw [show name = name' from service rfl, show values = values' from payload, flags, show id₁ = id₂ from id]
    | _ => cases op

theorem text_injective (m m' : Message) : m.text = m'.text ↔ m = m' := by
  constructor
  · intro same
    have read : (.ok m.unserializer : Except Exn Unserializer) = .ok m'.unserializer := by
      rw [← m.new_text, same, m'.new_text]
    exact json_injective (congrArg Unserializer.json (Except.ok.inj read))
  · exact congrArg Message.text

end Rosbridge
