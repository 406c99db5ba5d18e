import Rosbridge.Listen.Delivery
import Rosbridge.Picojson.Standard

/-!
# Any server

A server need not write its messages the way the library does. In whatever standard text one comes in, with its
fields in whatever order and others between them, it is heard under its name with the payload that is written there.
-/

namespace Rosbridge

open JsonText picojson Unserializer Listen Net

/-! ### The fields of a text -/

theorem encode_injective {s t : List Char} (same : encode s = encode t) : s = t := by
  have bytes : String.ofList s = String.ofList t := by
    refine String.toByteArray_inj.mp ?_
    rw [String.toByteArray_ofList, String.toByteArray_ofList, List.utf8Encode, List.utf8Encode]
    exact congrArg List.toByteArray same
  rw [← String.toList_ofList (l := s), bytes, String.toList_ofList]

/-- `operator[]` of what the fields are read as. -/
theorem read_fields {key : String} (plain : encode key.toList = ascii key) {fields : List (List Char × Tree)}
    {o o' : Object} (made : ofFields fields o = some o') :
    (field? key fields).elim (o'.read (ascii key) = o.read (ascii key))
      fun tree => ofTree tree = some (o'.read (ascii key)) := by
  induction fields generalizing o with
  | nil =>
    cases made
    rfl
  | cons field rest ih =>
    obtain ⟨name, tree⟩ := field
    obtain ⟨⟨key', v⟩, here, behind⟩ := Option.bind_eq_some_iff.mp made
    obtain ⟨v', value, same⟩ := Option.map_eq_some_iff.mp here
    obtain ⟨rfl, rfl⟩ := Prod.mk.inj same
    have later := ih behind
    rw [field?]
    cases found : field? key rest with
    | some tree' =>
      rw [found] at later
      exact later
    | none =>
      rw [found] at later
      have kept : o'.read (ascii key) = (o.insert (encode name) v').read (ascii key) := later
      by_cases named : name = key.toList
      · subst named
        rw [plain, Object.read_insert_self] at kept
        rw [if_pos rfl]
        exact value.trans (congrArg some kept.symm)
      · have other : ascii key ≠ encode name := by
          rw [← plain]
          exact fun same => named (encode_injective same).symm
        rw [Object.read_insert_of_ne _ _ other] at kept
        rw [if_neg named]
        exact kept

/-! ### What a server says -/

/-- The fields carry a payload to those who listen to a name. -/
inductive Says (fields : List (List Char × Tree)) (name : List Char) (payload : List (List Char × Tree)) : Prop where
  | publish (op : field? "op" fields = some (.string "publish".toList))
      (topic : field? "topic" fields = some (.string name)) (msg : field? "msg" fields = some (.object payload))
  | call_service (op : field? "op" fields = some (.string "call_service".toList))
      (service : field? "service" fields = some (.string name)) (args : field? "args" fields = some (.object payload))
  | service_response (op : field? "op" fields = some (.string "service_response".toList))
      (service : field? "service" fields = some (.string name))
      (values : field? "values" fields = some (.object payload))

/-- A text in which a server says something. No number in it is too large for a `double`. -/
structure Spoken where
  message : Bytes
  fields : List (List Char × Tree)
  name : List Char
  payload : List (List Char × Tree)
  json : Object
  document : Document message (.object fields)
  fits : ofFields fields .empty = some json
  content : Says fields name payload

namespace Spoken

def unserializer (x : Spoken) : Unserializer where
  json := x.json

theorem new_message (x : Spoken) : Unserializer.new picojson.package x.message = .ok x.unserializer := by
  refine Unserializer.new_ok.mpr ⟨x.json, [], document_is_read x.document ?_, rfl⟩
  rw [ofTree, x.fits]
  rfl

theorem read_field (x : Spoken) {key : String} (plain : encode key.toList = ascii key) {tree : Tree}
    (found : field? key x.fields = some tree) : ofTree tree = some (x.unserializer.json.read (ascii key)) := by
  have read := read_fields plain x.fits
  rw [found] at read
  exact read

theorem read_string (x : Spoken) {key : String} (plain : encode key.toList = ascii key) {s : List Char}
    (found : field? key x.fields = some (.string s)) :
    x.unserializer.json.read (ascii key) = .ofString (encode s) :=
  (Option.some.inj (x.read_field plain found)).symm

theorem read_object (x : Spoken) {key : String} (plain : encode key.toList = ascii key)
    {fields : List (List Char × Tree)} (found : field? key x.fields = some (.object fields)) :
    ∃ object, ofFields fields .empty = some object ∧ x.unserializer.json.read (ascii key) = .ofObject object := by
  obtain ⟨object, made, same⟩ := Option.map_eq_some_iff.mp (x.read_field plain found)
  exact ⟨object, made, same.symm⟩

theorem addressed_under (x : Spoken) {op : List Char} {type : OP} {named carried : String}
    (word : field? "op" x.fields = some (.string op)) (means : stringToOP (encode op) = type)
    (routes : ∀ u : Unserializer, u.typeOf = .ok type → route u = (u.json.read (ascii named)).getString.map some)
    (carries : ∀ u : Unserializer, u.typeOf = .ok type → u.payloadOf = (u.json.read (ascii carried)).getObject)
    (plain : encode named.toList = ascii named) (plain' : encode carried.toList = ascii carried)
    (name : field? named x.fields = some (.string x.name))
    (payload : field? carried x.fields = some (.object x.payload)) :
    ∃ object, ofFields x.payload .empty = some object ∧ route x.unserializer = .ok (some (encode x.name)) ∧
      x.unserializer.payloadOf = .ok object := by
  have declared : x.unserializer.typeOf = .ok type :=
    typeOf_ok.mpr ⟨_, x.read_string (by decide +kernel) word, means⟩
  obtain ⟨object, made, value⟩ := x.read_object plain' payload
  refine ⟨object, made, ?_, ?_⟩
  · rw [routes _ declared, x.read_string plain name]
    rfl
  · rw [carries _ declared, value]
    rfl

/-- The text is for its name, and has its payload. -/
theorem addressed (x : Spoken) : ∃ object, ofFields x.payload .empty = some object ∧
    route x.unserializer = .ok (some (encode x.name)) ∧ x.unserializer.payloadOf = .ok object := by
  cases x.content with
  | publish op topic msg =>
    have means : stringToOP (encode "publish".toList) = .TopicPublishOp := by decide +kernel
    refine x.addressed_under op means ?_ ?_ (by decide +kernel) (by decide +kernel) topic msg
    · exact fun u type => by rw [route, type]
    · exact fun u type => by rw [payloadOf, type]
  | call_service op service args =>
    have means : stringToOP (encode "call_service".toList) = .ServiceCallOp := by decide +kernel
    refine x.addressed_under op means ?_ ?_ (by decide +kernel) (by decide +kernel) service args
    · exact fun u type => by rw [route, type]
    · exact fun u type => by rw [payloadOf, type]
  | service_response op service values =>
    have means : stringToOP (encode "service_response".toList) = .ServiceResponseOp := by decide +kernel
    refine x.addressed_under op means ?_ ?_ (by decide +kernel) (by decide +kernel) service values
    · exact fun u type => by rw [route, type]
    · exact fun u type => by rw [payloadOf, type]

def payload? (x : Spoken) (name : Bytes) : Option Object :=
  if encode x.name = name then ofFields x.payload .empty else none

theorem letter?_message (x : Spoken) (name : Bytes) :
    (Event.letter? picojson.package name (.inbound x.message)).bind Listen.payload? = x.payload? name := by
  obtain ⟨object, made, routed, carried⟩ := x.addressed
  have value : Listen.payload? x.unserializer = some object := by
    rw [Listen.payload?, (payload_yields _).1, carried]
    rfl
  rw [letter?_routed x.new_message routed value, Spoken.payload?, made]
  exact if_congr Option.some_inj rfl rfl

/-- `id`, which ties a response to its call. -/
theorem id_message (x : Spoken) {id : List Char} (found : field? "id" x.fields = some (.string id)) :
    x.unserializer.idOf = encode id := by
  rw [idOf, x.read_string (by decide +kernel) found]
  rfl

end Spoken

/-! ### A run among servers -/

/-- All that comes in is what a server says. -/
inductive Turn where
  | server (x : Spoken)
  | attach (r : Receiver)
  | listener (i : Nat) (returned : Option Object)
  | destroy (i : Nat)

namespace Turn

def event : Turn → Net.Event
  | server x => .inbound x.message
  | attach r => .attach r
  | listener i returned => .listener i returned
  | destroy i => .destroy i

def payload? (name : Bytes) : Turn → Option Object
  | server x => x.payload? name
  | _ => none

theorem letter?_event (name : Bytes) (turn : Turn) :
    (Event.letter? picojson.package name turn.event).bind Listen.payload? = turn.payload? name := by
  cases turn with
  | server x => exact x.letter?_message name
  | _ => rfl

end Turn

theorem mail_of_turns (name : Bytes) (turns : List Turn) :
    (mail picojson.package name (turns.map Turn.event)).filterMap Listen.payload? =
      turns.filterMap (Turn.payload? name) := by
  rw [mail, List.filterMap_map, List.filterMap_filterMap]
  exact congrArg (turns.filterMap ·) (funext (Turn.letter?_event name))

/-- In every run in which only servers write, the callback of an endpoint hears a subsequence of the payloads that were
said under its name since it was attached, and `id` returns the id of each text. -/
theorem any_server_is_heard (turns : List Turn) :
    (∀ r ∈ (Net.run picojson.package {} (turns.map Turn.event)).receivers, ∃ before after,
      turns = before ++ .attach r.1 :: after ∧ (heard r.2.log).Sublist (after.filterMap (Turn.payload? r.1.name))) ∧
    ∀ (x : Spoken), ∃ u, Unserializer.new picojson.package x.message = .ok u ∧
      ∀ id, field? "id" x.fields = some (.string id) →
        ∀ v, SameReads u v → (Unserializer.id v).1 = .ok (encode id) := by
  refine ⟨fun r member => ?_, fun x => ⟨x.unserializer, x.new_message, fun id found v same => ?_⟩⟩
  · obtain ⟨before, after, split, hears⟩ := heard_since member
    obtain ⟨first, rest, rfl, rfl, behind⟩ := List.map_eq_append_iff.mp split
    obtain ⟨turn, others, rfl, attached, rfl⟩ := List.map_eq_cons_iff.mp behind
    obtain rfl : turn = .attach r.1 := by
      cases turn with
      | attach r' => exact congrArg Turn.attach (Net.Event.attach.inj attached)
      | _ => cases attached
    refine ⟨first, others, rfl, ?_⟩
    rw [← mail_of_turns]
    exact hears
  · have kept : v.idOf = x.unserializer.idOf := by rw [idOf, idOf, same]
    rw [(id_yields v).1]
    exact congrArg Except.ok (kept.trans (x.id_message found))

/-- The operation comes last, after a field that nobody reads, and the topic is written with an escape. -/
def greeting : Spoken where
  message :=
    ascii "\x7b\"msg\":\x7b\"data\":true\x7d, \"id\":\"7\",\"seq\":null,\"topic\":\"\\u002fa\",\"op\":\"publish\"\x7d"
  fields := [("msg".toList, .object [("data".toList, .boolean true)]), ("id".toList, .string ['7']), ("seq".toList, .null),
    ("topic".toList, .string ['/', 'a']), ("op".toList, .string "publish".toList)]
  name := ['/', 'a']
  payload := [("data".toList, .boolean true)]
  json :=
    ((((Object.empty.insert (ascii "msg") (.ofObject (Object.empty.insert (ascii "data") (.ofBool true)))).insert
      (ascii "id") (.ofString (ascii "7"))).insert (ascii "seq") .null).insert (ascii "topic")
      (.ofString (ascii "/a"))).insert (ascii "op") (.ofString (ascii "publish"))
  document := by
    have spelled {s : List Char} {text : Bytes}
        (same : (encode s).flatMap serialize_str_char ++ [byte '"'] = text) : JsonText.StringText text s :=
      same ▸ string_is_standard s
    have quad : Quad (ascii "002f") '/'.val.toNat := by decide +kernel
    have space : ∀ b ∈ ascii " ", b ∈ word " \t\n\r" := by decide +kernel
    have none : Blank [] := blank_nil
    have msg : JsonText.StringText (ascii "msg\"") "msg".toList := spelled (by decide +kernel)
    have data : JsonText.StringText (ascii "data\"") "data".toList := spelled (by decide +kernel)
    have object := JsonText.ValueText.object none (.last (.mk data none none (.boolean true)) none)
    have id : JsonText.StringText (ascii "id\"") "id".toList := spelled (by decide +kernel)
    have seven : JsonText.StringText (ascii "7\"") ['7'] := spelled (by decide +kernel)
    have seq : JsonText.StringText (ascii "seq\"") "seq".toList := spelled (by decide +kernel)
    have topic : JsonText.StringText (ascii "topic\"") "topic".toList := spelled (by decide +kernel)
    have behind : JsonText.StringText (ascii "a\"") ['a'] := spelled (by decide +kernel)
    have name := JsonText.StringText.single quad behind
    have op : JsonText.StringText (ascii "op\"") "op".toList := spelled (by decide +kernel)
    have publish : JsonText.StringText (ascii "publish\"") "publish".toList := spelled (by decide +kernel)
    have last := JsonText.FieldsText.last (.mk op none none (.string publish)) none
    have fourth := JsonText.FieldsText.more (.mk topic none none (.string name)) none none last
    have third := JsonText.FieldsText.more (.mk seq none none .null) none none fourth
    have second := JsonText.FieldsText.more (.mk id none none (.string seven)) none none third
    have first := JsonText.FieldsText.more (.mk msg none none object) none space second
    exact .mk none (.object none first) none
  fits := rfl
  content := .publish (by rfl) (by rfl) (by rfl)

def greeted : List Turn :=
  .attach (.subscriber { topic := ascii "/a", type := [] }) :: .server greeting ::
    List.replicate 5 (.listener 0 (some .empty))

theorem any_server_is_heard_greeting :
    (Net.run picojson.package {} (greeted.map Turn.event)).receivers.map (fun r => heard r.2.log) =
        [[Object.empty.insert (ascii "data") (.ofBool true)]] ∧
      (∀ r ∈ (Net.run picojson.package {} (greeted.map Turn.event)).receivers, ∃ before after,
        greeted = before ++ .attach r.1 :: after ∧
          (heard r.2.log).Sublist (after.filterMap (Turn.payload? r.1.name))) ∧
      ∃ u, Unserializer.new picojson.package greeting.message = .ok u ∧
        (Unserializer.id u).1 = .ok (ascii "7") := by
  obtain ⟨hears, ids⟩ := any_server_is_heard greeted
  obtain ⟨u, built, id⟩ := ids greeting
  exact ⟨by decide +kernel, hears, u, built, id ['7'] rfl u fun _ => rfl⟩

end Rosbridge
