import Rosbridge.Access
import Rosbridge.Picojson.Intake
import Rosbridge.Reading
import Rosbridge.Talk.Slips
import Rosbridge.Wire

/-!
# UTF-8 on the wire

The websocket takes the text of a message exactly if the strings of the message are UTF-8, and throws
otherwise, where `talk` goes on without the message. Of what it lets in, the payload can be sent on.
-/

namespace Rosbridge

open utf8_validator

namespace Value

theorem unicode_ofString {s : Bytes} : (ofString s).raw.Unicode ↔ Utf8.Valid s :=
  ⟨fun all => all s List.mem_cons_self, fun valid _ member => List.mem_singleton.mp member ▸ valid⟩

theorem unicode_ofBool (b : Bool) : (ofBool b).raw.Unicode := fun _ member => absurd member List.not_mem_nil

theorem unicode_ofDouble (n : Double) : (ofDouble n).raw.Unicode := fun _ member => absurd member List.not_mem_nil

end Value

theorem validate_serialize (v : Value) : validate (picojson.serialize v) = some (decide v.raw.Unicode) := by
  rw [validate_eq]
  exact congrArg some (decide_eq_decide.mpr (picojson.valid_raw v.raw))

/-! ### The nine kinds of messages -/

namespace Serializer

def Unicode (s : Serializer) : Prop := s.json.Unicode

instance (s : Serializer) : Decidable s.Unicode := by
  unfold Unicode Object.Unicode
  infer_instance

theorem unicode_new (op : OP) {id : Bytes} (valid : Utf8.Valid id) : (new op id).Unicode := by
  have named : Utf8.Valid op.to_string := by cases op <;> decide +kernel
  refine Object.Unicode.insert (Object.Unicode.insert Object.unicode_empty ?_ ?_) ?_ ?_
  · decide +kernel
  · exact Value.unicode_ofString.mpr named
  · decide +kernel
  · exact Value.unicode_ofString.mpr valid

theorem Unicode.set {s : Serializer} (h : s.Unicode) {key : String} {value : Value} (named : Utf8.Valid (ascii key))
    (valued : value.raw.Unicode) : (s.set key value).Unicode :=
  Object.Unicode.insert h named valued

end Serializer

namespace Message

structure Unicode (m : Message) : Prop where
  name : Utf8.Valid m.name
  id : Utf8.Valid m.id
  type : ∀ type ∈ m.type?, Utf8.Valid type
  payload : m.payload.Unicode

theorem unicode_serializer {m : Message} (h : m.Unicode) : m.serializer.Unicode := by
  have name := Value.unicode_ofString.mpr h.name
  cases m with
  | topicAdvertise topic type id | serviceAdvertise service type id =>
    have typed := Value.unicode_ofString.mpr (h.type type rfl)
    exact ((Serializer.unicode_new _ h.id).set (by decide +kernel) name).set (by decide +kernel) typed
  | topicSubscribe topic type queue_length id =>
    have typed := Value.unicode_ofString.mpr (h.type type rfl)
    exact (((Serializer.unicode_new _ h.id).set (by decide +kernel) name).set (by decide +kernel) typed).set
      (by decide +kernel) (Value.unicode_ofDouble _)
  | topicMessage topic msg id | serviceRequest service args id =>
    exact ((Serializer.unicode_new _ h.id).set (by decide +kernel) name).set (by decide +kernel) h.payload
  | serviceResponse service values result id =>
    exact (((Serializer.unicode_new _ h.id).set (by decide +kernel) name).set (by decide +kernel)
      (Value.unicode_ofBool _)).set (by decide +kernel) h.payload
  | _ => exact (Serializer.unicode_new _ h.id).set (by decide +kernel) name

theorem payload_of_serializer {m : Message} (h : m.serializer.Unicode) : m.payload.Unicode := by
  have read (key : String) {o : Object} (here : m.serializer.json.read (ascii key) = .ofObject o) : o.Unicode := by
    have field := Object.Unicode.read h (ascii key)
    rw [here] at field
    exact field
  cases m with
  | topicMessage topic msg id => exact read "msg" (Serializer.read_set_self _ _ _)
  | serviceRequest service args id => exact read "args" (Serializer.read_set_self _ _ _)
  | serviceResponse service values result id => exact read "values" (Serializer.read_set_self _ _ _)
  | _ => exact Object.unicode_empty

theorem unicode_of_serializer {m : Message} (h : m.serializer.Unicode) : m.Unicode := by
  have read (key : String) {s : Bytes} (here : m.serializer.json.read (ascii key) = .ofString s) : Utf8.Valid s := by
    have field := Object.Unicode.read h (ascii key)
    rw [here] at field
    exact Value.unicode_ofString.mp field
  have named : isTopicOP m.op = true ∨ isServiceOP m.op = true := by
    cases m <;> first | exact .inl rfl | exact .inr rfl
  refine ⟨?_, read "id" (read_id m), fun type declares => read "type" (read_type declares), payload_of_serializer h⟩
  rcases named with onTopic | ofService
  · exact read "topic" (read_topic onTopic)
  · exact read "service" (read_service ofService)

theorem unicode_serializer_iff (m : Message) : m.serializer.Unicode ↔ m.Unicode :=
  ⟨unicode_of_serializer, unicode_serializer⟩

instance (m : Message) : Decidable m.Unicode := decidable_of_iff _ m.unicode_serializer_iff

end Message

theorem validate_serialized (s : Serializer) :
    validate (s.serialized picojson.package) = some (decide s.Unicode) :=
  validate_serialize (.ofObject s.json)

theorem validate_text (m : Message) : validate m.text = some (decide m.Unicode) :=
  (validate_serialized m.serializer).trans (congrArg some (decide_eq_decide.mpr m.unicode_serializer_iff))

/-- The websocket takes the text of a value if all its strings are UTF-8, and only then. Of a message these are its
name, its id, its type and the strings of its payload. -/
theorem texts_are_taken_iff (v : Value) (m : Message) :
    validate (picojson.serialize v) = some (decide v.raw.Unicode) ∧ validate m.text = some (decide m.Unicode) :=
  ⟨validate_serialize v, validate_text m⟩

/-! ### What comes in -/

/-- A text that came in, and what `picojson` makes of it: without an error, unless the text was one frame. -/
structure TakenIn (frames : List (List Bytes)) (message : Bytes) (v : Value) (err : Bytes) : Prop where
  whole : frames.flatten.flatten = message
  received : receive frames = some true
  parsed : picojson.parse message = .ok (v, err)
  single : frames.length = 1 ∨ err = []

theorem TakenIn.unicode {frames : List (List Bytes)} {message err : Bytes} {v : Value}
    (h : TakenIn frames message v err) : v.raw.Unicode := by
  have received := (receive_iff frames).mp h.received
  rw [h.whole] at received
  apply picojson.unicode_of_parse h.parsed
  split at received
  · exact .inl received
  · rename_i several
    exact .inr ⟨h.single.resolve_left several, received⟩

namespace Unserializer

def Unicode (u : Unserializer) : Prop := ∀ key, (u.json.read key).raw.Unicode

variable {u : Unserializer}

theorem Unicode.getString (h : u.Unicode) {key s : Bytes} (found : (u.json.read key).getString = .ok s) :
    Utf8.Valid s := by
  have field := h key
  rw [Value.getString_ok.mp found] at field
  exact Value.unicode_ofString.mp field

theorem Unicode.idOf (h : u.Unicode) : Utf8.Valid u.idOf := by
  unfold Unserializer.idOf
  split
  · rename_i s found
    exact h.getString found
  · exact Utf8.valid_nil

theorem Unicode.guardedOf (h : u.Unicode) {isOP : OP → Bool} {key : String} {s : Bytes}
    (found : guardedOf isOP Value.getString key u = .ok s) : Utf8.Valid s := by
  unfold Unserializer.guardedOf at found
  split at found
  · cases found
  · split at found
    · exact h.getString found
    · cases found

theorem Unicode.payloadOf (h : u.Unicode) {payload : Object} (found : u.payloadOf = .ok payload) :
    payload.Unicode := by
  have field (key : Bytes) (here : (u.json.read key).getObject = .ok payload) : payload.Unicode := by
    have read := h key
    rw [Value.getObject_ok.mp here] at read
    exact read
  unfold Unserializer.payloadOf at found
  split at found
  · cases found
  · exact field _ found
  · exact field _ found
  · exact field _ found
  · cases found
    exact Object.unicode_empty

end Unserializer

namespace Unserializer

theorem mem_lookups {u : Unserializer} {field : OP → Option String} {key : String}
    (looked : key ∈ u.lookups field) : key = "op" ∨ ∃ op, field op = some key := by
  unfold lookups at looked
  rcases List.mem_cons.mp looked with rfl | found
  · exact .inl rfl
  · split at found
    · rename_i op _
      exact .inr ⟨op, Option.mem_toList.mp found⟩
    · cases found

/-- The accessors look up names of fields. -/
theorem key_valid {u : Unserializer} {a : Accessor} {key : String} (looked : key ∈ u.keys a) :
    Utf8.Valid (ascii key) := by
  have fields : ∀ key ∈ ["id", "op", "result", "topic", "service", "msg", "args", "values"],
      Utf8.Valid (ascii key) := by decide +kernel
  refine fields key ?_
  have guarded {isOP : OP → Bool} {field : String} (member : key ∈ u.lookups (guardedKey isOP field)) :
      key = "op" ∨ key = field := by
    refine (mem_lookups member).imp_right fun ⟨op, same⟩ => ?_
    unfold guardedKey at same
    split at same
    · exact (Option.some.inj same).symm
    · cases same
  cases a with
  | id => simp [List.mem_singleton.mp looked]
  | type => simp [List.mem_singleton.mp looked]
  | result => rcases guarded looked with rfl | rfl <;> simp
  | topic => rcases guarded looked with rfl | rfl <;> simp
  | service => rcases guarded looked with rfl | rfl <;> simp
  | payload =>
    rcases mem_lookups looked with rfl | ⟨op, same⟩
    · simp
    · unfold Listen.payloadKey at same
      split at same
      · simp [← Option.some.inj same]
      · simp [← Option.some.inj same]
      · simp [← Option.some.inj same]
      · cases same
  | data => cases looked

theorem unicode_afterAll {picojson : Picojson} {u : Unserializer} (h : u.json.Unicode) (calls : List Accessor) :
    (u.afterAll picojson calls).json.Unicode := by
  rw [afterAll_eq]
  have named : ∀ key ∈ calls.flatMap u.keys, Utf8.Valid (ascii key) := by
    intro key member
    obtain ⟨a, -, looked⟩ := List.mem_flatMap.mp member
    exact key_valid looked
  generalize calls.flatMap u.keys = keys at named
  induction keys generalizing u with
  | nil => exact h
  | cons key rest ih =>
    rw [← List.singleton_append, touchAll_append]
    exact ih (h.touch (named key List.mem_cons_self)) fun other later => named other (List.mem_cons_of_mem _ later)

end Unserializer

open Unserializer in
/-- Of a text that the websocket let in, what the accessors return is UTF-8, whichever were called before. What `data`
prints is taken again, and so is every message that is made of such strings and such a payload. -/
theorem intake_is_sent_on {frames : List (List Bytes)} {message err : Bytes} {v : Value} {u : Unserializer}
    (taken : TakenIn frames message v err) (read : Unserializer.new picojson.package message = .ok u) :
    (∀ calls text, (data picojson.package (u.afterAll picojson.package calls)).1 = .ok text →
      validate text = some true) ∧
    ∀ u', SameReads u u' →
      (∀ s, (Unserializer.id u').1 = .ok s ∨ (topic u').1 = .ok s ∨ (service u').1 = .ok s → Utf8.Valid s) ∧
      ∀ o, (payload u').1 = .ok o → ∀ m : Message, m.payload = o →
        (validate m.text = some true ↔
          Utf8.Valid m.name ∧ Utf8.Valid m.id ∧ ∀ type ∈ m.type?, Utf8.Valid type) := by
  obtain ⟨json, err', parsed, rfl⟩ := new_ok.mp read
  obtain ⟨rfl, -⟩ := Prod.mk.inj (Except.ok.inj (parsed.symm.trans taken.parsed))
  have unicode : json.Unicode := taken.unicode
  constructor
  · intro calls text printed
    have later := @unicode_afterAll picojson.package { json := json } unicode calls
    generalize afterAll picojson.package { json := json } calls = w at printed later
    obtain rfl := Except.ok.inj printed
    rw [show w.json.to_string picojson.package = picojson.serialize (.ofObject w.json) from rfl, validate_serialize]
    exact congrArg some (decide_eq_true later)
  intro u' same
  have reads : u'.Unicode := fun key => by
    rw [same key]
    exact unicode.read key
  constructor
  · rintro s (found | found | found)
    · rw [(id_yields u').1] at found
      obtain rfl := Except.ok.inj found
      exact reads.idOf
    · rw [(topic_yields u').1] at found
      exact reads.guardedOf found
    · rw [(service_yields u').1] at found
      exact reads.guardedOf found
  · rintro o found m rfl
    rw [(payload_yields u').1] at found
    have carried := reads.payloadOf found
    rw [validate_text, Option.some_inj, decide_eq_true_iff]
    exact ⟨fun given => ⟨given.name, given.id, given.type⟩, fun given => ⟨given.1, given.2.1, given.2.2, carried⟩⟩

/-- A publication whose frames end inside a character. -/
def interrupted : List (List Bytes) :=
  [[ascii "\x7b\"op\":\"publish\",\"topic\":\"/caf", [0xc3]],
    [[0xa9], ascii "\",\"msg\":\x7b\"data\":\"\\u00e9\"\x7d\x7d"]]

def interrupted_json : Object :=
  ((Object.empty.insert (ascii "op") (.ofString (ascii "publish"))).insert (ascii "topic")
    (.ofString (ascii "/caf" ++ [0xc3, 0xa9]))).insert (ascii "msg")
      (.ofObject (Object.empty.insert (ascii "data") (.ofString [0xc3, 0xa9])))

open Unserializer in
theorem intake_is_sent_on_interrupted :
    (∀ calls text, (data picojson.package (afterAll picojson.package ⟨interrupted_json⟩ calls)).1 = .ok text →
      validate text = some true) ∧
    ∀ u', SameReads ⟨interrupted_json⟩ u' →
      (∀ s, (Unserializer.id u').1 = .ok s ∨ (topic u').1 = .ok s ∨ (service u').1 = .ok s → Utf8.Valid s) ∧
      ∀ o, (payload u').1 = .ok o → ∀ m : Message, m.payload = o →
        (validate m.text = some true ↔
          Utf8.Valid m.name ∧ Utf8.Valid m.id ∧ ∀ type ∈ m.type?, Utf8.Valid type) := by
  have parsed : picojson.parse interrupted.flatten.flatten = .ok (.ofObject interrupted_json, []) := by
    decide +kernel
  have taken : TakenIn interrupted interrupted.flatten.flatten (.ofObject interrupted_json) [] :=
    ⟨rfl, by decide +kernel, parsed, .inr rfl⟩
  exact intake_is_sent_on taken (new_ok.mpr ⟨_, _, parsed, rfl⟩)

/-- A text that ends inside a character is let in if it has several frames. `parse` leaves half of the character,
which is not taken again. -/
example :
    let frames : List (List Bytes) := [[ascii "\x7b\"data\":\"caf"], [[0xc3]]]
    receive frames = some true ∧ (Unserializer.new picojson.package frames.flatten.flatten).toOption.map
      (fun u => validate (u.json.to_string picojson.package)) = some (some false) := by
  decide +kernel

/-! ### What the sender loop sends -/

namespace Talk

variable {M : Type}

def Brings (Q : M → Prop) : Anytime M → Prop
  | .event (.attach _ head_msg) => Q head_msg
  | .event (.push _ msg) => Q msg
  | .event (.destroy _ msg) => Q msg
  | _ => True

theorem everySlip_along {Q : M → Prop} {phase : Phase} {events : List (Anytime M)}
    (brings : ∀ e ∈ events, Brings Q e) :
    ∀ i l, lane i (Anytime.run (start phase) events) = some l → EverySlip (fun x => Q x.msg) l := by
  refine @Machine.invariant_along (State M) (Anytime M) Anytime.step
    (fun s => ∀ i l, lane i s = some l → EverySlip (fun x => Q x.msg) l) (fun _ e => Brings Q e) ?_ _ _ ?_
    (Machine.along_of_forall _ brings)
  · intro s e before allowed i l' after
    cases e with
    | reset j =>
      rw [Anytime.lane_reset] at after
      obtain ⟨l, here, rfl⟩ := Option.map_eq_some_iff.mp after
      have every := before i l here
      split
      · exact ⟨every.head, every.queued, every.held, every.sent⟩
      · exact every
    | event e =>
      rcases lane_step after with ⟨l, here, rfl⟩ | ⟨queue_size, head_msg, rfl, rfl⟩
      · have every := before i l here
        have sees := label_sees here e
        generalize label i s e = seen at sees ⊢
        cases sees with
        | push msg | destroy msg => exact everySlip_push every allowed
        | _ => exact everySlip_step every (by simp)
      · exact everySlip_fresh allowed s.link
  · intro i l none
    simp [lane, start] at none

/-- The websocket throws at a text that `validate` does not accept. -/
def Validates (s : State Serializer) : Talk.Event Serializer → Prop
  | .talk accepts =>
    match s.pc with
    | .message_sender _ x => accepts = true → validate (x.msg.serialized picojson.package) = some true
    | _ => True
  | _ => True

instance (s : State Serializer) (e : Talk.Event Serializer) : Decidable (Validates s e) := by
  unfold Validates
  split
  · split <;> infer_instance
  · infer_instance

theorem sent_unicode {phase : Phase} {events : List (Anytime Serializer)}
    (checked : Machine.Along Anytime.step (Anytime.On Validates) (start phase) events) :
    ∀ i l, lane i (Anytime.run (start phase) events) = some l →
      ∀ session, ∀ x ∈ sentIn session l.talker.log, x.msg.Unicode := by
  refine Anytime.lane_invariant (by simp [Lane.fresh, Talker.new, sentIn]) ?_ (fun _ sent => sent) checked
  intro i s l e here sent guard ok
  have sees := label_sees here e
  by_cases quiet : ∀ accepts, label i s e ≠ .message_sender accepts
  · intro session x member
    rw [sentIn_quiet quiet] at member
    exact sent session x member
  · simp only [not_forall, not_not] at quiet
    obtain ⟨accepts, seen⟩ := quiet
    rw [seen] at sees ⊢
    cases sees with
    | message_sender accepts x pc hold =>
      rcases l.message_sender_cases accepts with same | ⟨y, hold', ⟨-, -, accepted, taken⟩ | ⟨-, refused⟩⟩
      · rwa [same]
      · obtain rfl : x = y := by simpa [hold] using hold'
        have valid := by simpa [Validates, pc, accepted, validate_serialized] using ok
        intro session z member
        rw [taken] at member
        by_cases same : l.link.session = session
        · subst same
          rw [sentIn_sent_self] at member
          rcases List.mem_append.mp member with old | new
          · exact sent _ z old
          · rwa [List.mem_singleton.mp new]
        · rw [sentIn_sent_of_ne _ _ same] at member
          exact sent session z member
      · rwa [refused]

/-- What any session took is UTF-8, and is let in on the other side in whatever frames and pieces it comes. Where only
UTF-8 is pushed, the websocket throws at no text. -/
theorem only_utf8_is_sent {phase : Phase} {events : List (Anytime Serializer)}
    (checked : Machine.Along Anytime.step (Anytime.On Validates) (start phase) events) :
    (∀ t ∈ (Anytime.run (start phase) events).talkers, ∀ session, ∀ x ∈ sentIn session t.log,
      x.msg.Unicode ∧ ∀ frames : List (List Bytes),
        frames.flatten.flatten = x.msg.serialized picojson.package → receive frames = some true) ∧
    ((∀ e ∈ events, Brings Serializer.Unicode e) →
      ∀ i x, (Anytime.run (start phase) events).pc = .message_sender i x →
        validate (x.msg.serialized picojson.package) = some true) := by
  constructor
  · intro t member session x taken
    obtain ⟨i, l, here, rfl⟩ := lane_of_mem member
    have unicode := sent_unicode checked i l here session x taken
    refine ⟨unicode, fun frames whole => ?_⟩
    have valid : Utf8.Valid (x.msg.serialized picojson.package) := (picojson.valid_raw _).mpr unicode
    rw [receive_iff, whole]
    split
    · exact valid
    · exact ⟨[], by rwa [List.append_nil]⟩
  · intro brings i x pc
    have inside := (inside_run phase events).attached i (by rw [pc]; rfl)
    have here := lane_some (List.getElem?_eq_getElem inside)
    have unicode : x.msg.Unicode := (everySlip_along brings i _ here).held x (by rw [pc]; simp [Pc.hold])
    rw [validate_serialized]
    exact congrArg some (decide_eq_true unicode)

/-- The websocket throws at the second message, which is Latin-1, and `talk` goes on with the third. -/
def latin : List (Talk.Event Serializer) :=
  let cafe : Object := Object.empty.insert (ascii "data") (.ofString (ascii "caf" ++ [0xe9]))
  .attach 10 advertise :: talks 8 ++
    [.push 0 (.topicMessage (ascii "/chatter") cafe (ascii "2")), .push 0 (chatter "two" "3")] ++
      talks 5 ++ .talk false :: talks 10

theorem only_utf8_is_sent_latin :
    (Anytime.run (start .opened) (latin.map .event)).talkers.map (fun t => transmitted t.log) =
      [[⟨.pushed 1, chatter "two" "3"⟩]] ∧
    ∀ t ∈ (Anytime.run (start .opened) (latin.map .event)).talkers, ∀ session, ∀ x ∈ sentIn session t.log,
      x.msg.Unicode :=
  ⟨by rfl, fun t member session x taken =>
    ((only_utf8_is_sent (by decide +kernel)).1 t member session x taken).1⟩

end Talk

end Rosbridge
