import Rosbridge.Listen.ById
import Rosbridge.Listen.Payload

/-!
# What reading does to a message

The accessors of an `Unserializer` go through the `operator[]` of its map, which stores a null under
every key that it does not find. A message stays as it is exactly when it has all the fields that it
is asked for.
-/

namespace Rosbridge

open Unserializer Listen

namespace Unserializer

/-- `operator==` -/
def equals (u other : Unserializer) : Bool := Raw.beq (.object u.json.fields) (.object other.json.fields)

inductive Accessor where
  | id
  | type
  | result
  | topic
  | service
  | payload
  | data

def after (picojson : Picojson) (u : Unserializer) : Accessor → Unserializer
  | .id => (u.id).2
  | .type => (u.type).2
  | .result => (u.result).2
  | .topic => (u.topic).2
  | .service => (u.service).2
  | .payload => (u.payload).2
  | .data => (data picojson u).2

def afterAll (picojson : Picojson) : Unserializer → List Accessor → Unserializer :=
  List.foldl (after picojson)

def has (u : Unserializer) (key : String) : Bool := (u.json.find? (ascii key)).isSome

/-- The keys that a call looks up which asks for the operation first, and by that for a field. -/
def lookups (u : Unserializer) (field : OP → Option String) : List String :=
  "op" ::
    match u.typeOf with
    | .ok op => (field op).toList
    | .error _ => []

def guardedKey (isOP : OP → Bool) (key : String) (op : OP) : Option String :=
  if isOP op then some key else none

def keys (u : Unserializer) : Accessor → List String
  | .id => ["id"]
  | .type => ["op"]
  | .result => u.lookups (guardedKey (fun op => op = .ServiceResponseOp) "result")
  | .topic => u.lookups (guardedKey isTopicOP "topic")
  | .service => u.lookups (guardedKey isServiceOP "service")
  | .payload => u.lookups Listen.payloadKey
  | .data => []

/-- The message with a null under each key that it did not have. -/
def touchAll (u : Unserializer) (keys : List String) : Unserializer where
  json := (keys.map ascii).foldl Object.touch u.json

theorem touchAll_eq_iff {u : Unserializer} {keys : List String} :
    u.touchAll keys = u ↔ ∀ key ∈ keys, u.has key = true := by
  rw [Unserializer.ext_iff, touchAll, Object.foldl_touch_eq_iff, List.forall_mem_map]
  rfl

theorem touchAll_append (u : Unserializer) (keys more : List String) :
    u.touchAll (keys ++ more) = (u.touchAll keys).touchAll more := by
  simp only [touchAll, List.map_append, List.foldl_append]

theorem guarded_touches {α : Type} (isOP : OP → Bool) (as : Value → Except Exn α) (key : String)
    (u : Unserializer) :
    ((guarded isOP as key) u).2 = u.touchAll (u.lookups (guardedKey isOP key)) := by
  unfold guarded lookups
  rw [bind_run, type_run]
  cases u.typeOf with
  | error e => rfl
  | ok op => cases allowed : isOP op <;>
      simp [allowed, bind_run, throw_run, get_run, touchAll, guardedKey]

theorem payload_touches (u : Unserializer) :
    (u.payload).2 = u.touchAll (u.lookups Listen.payloadKey) := by
  unfold payload lookups
  rw [bind_run, type_run]
  cases known : u.typeOf with
  | error e => rfl
  | ok op =>
    cases op <;> simp [bind_run, type_run, pure_run, get_run, known, touchAll, Listen.payloadKey]

theorem id_touches (u : Unserializer) : (u.id).2 = u.touchAll ["id"] := by
  simp only [id, bind_run, get_run]
  cases (u.json.read (ascii "id")).isString <;> simp [pure_run, get_run, touchAll]

/-- A call stores a null under the keys that it looks up and does not find, and does nothing else. -/
theorem after_eq (picojson : Picojson) (u : Unserializer) (a : Accessor) :
    u.after picojson a = u.touchAll (u.keys a) := by
  cases a with
  | id => exact id_touches u
  | type => exact congrArg Prod.snd (type_run u)
  | result => exact guarded_touches _ _ _ u
  | topic => exact guarded_touches _ _ _ u
  | service => exact guarded_touches _ _ _ u
  | payload => exact payload_touches u
  | data => rfl

theorem reads_touchAll (u : Unserializer) (keys : List String) : (u.touchAll keys).reads = u.reads := by
  induction keys generalizing u with
  | nil => rfl
  | cons key rest ih =>
    rw [← List.singleton_append, touchAll_append, ih]
    exact funext fun other => u.json.read_touch (ascii key) other

theorem keys_congr {u v : Unserializer} (same : u.reads = v.reads) : u.keys = v.keys := by
  have known : u.typeOf = v.typeOf := typeOf_congr same
  funext a
  cases a <;> simp only [keys, lookups, known]

/-- What a call looks up does not depend on the calls before it. -/
theorem afterAll_eq (picojson : Picojson) (u : Unserializer) (calls : List Accessor) :
    u.afterAll picojson calls = u.touchAll (calls.flatMap u.keys) := by
  induction calls generalizing u with
  | nil => rfl
  | cons a rest ih =>
    have same : (u.touchAll (u.keys a)).keys = u.keys := keys_congr (reads_touchAll u _)
    rw [afterAll, List.foldl_cons, ← afterAll, after_eq, ih, same, List.flatMap_cons, touchAll_append]

/-- The message is equal to a copy that was taken before, and its text is the same. -/
def Unchanged (picojson : Picojson) (before u : Unserializer) : Prop :=
  u.equals before = true ∧ (data picojson u).1 = (data picojson before).1

theorem has_of_equals {u v : Unserializer} (same : u.equals v = true) (key : String) :
    u.has key = true ↔ v.has key = true :=
  Object.find?_isSome_congr (Raw.keys_of_beqFields same) (ascii key)

theorem unchanged_refl (picojson : Picojson) (u : Unserializer) : Unchanged picojson u u :=
  ⟨Raw.beq_refl (.object u.json.fields), rfl⟩

theorem touchAll_unchanged_iff {picojson : Picojson} {u : Unserializer} {keys : List String} :
    Unchanged picojson u (u.touchAll keys) ↔ ∀ key ∈ keys, u.has key = true := by
  constructor
  · rintro ⟨same, -⟩ key member
    rw [← has_of_equals same]
    exact (Object.find?_foldl_touch_isSome _ u.json (ascii key)).mpr (.inl (List.mem_map_of_mem member))
  · intro every
    rw [touchAll_eq_iff.mpr every]
    exact unchanged_refl picojson u

end Unserializer

namespace Listen

/-- The messages that the search for an identifier looks at: up to the first that has it. -/
def searched (id : Bytes) (q : List Letter) : List Letter :=
  q.take (q.findIdx (fun x => x.msg.idOf = id) + 1)

theorem asked_eq_iff {x : Letter} : asked x = x ↔ x.msg.has "id" = true := by
  have touched : (asked x).msg = x.msg.touchAll ["id"] := id_touches x.msg
  have same : asked x = x ↔ (asked x).msg = x.msg := by
    obtain ⟨ticket, msg⟩ := x
    simp [asked]
  rw [same, touched, touchAll_eq_iff]
  simp

theorem find_if_leaves (id : Bytes) (q : List Letter) :
    (find_if (hasId id) q).2 = q ↔ ∀ x ∈ searched id q, asked x = x := by
  unfold searched
  induction q with
  | nil => simp [find_if]
  | cons x rest ih =>
    rw [find_if, hasId_eq, List.findIdx_cons]
    by_cases found : x.msg.idOf = id
    · simp [found]
    · simp [found, ih]

end Listen

/-- Reading a message leaves it as it is exactly when it has every field that is looked up, and a
search leaves a queue as it is exactly when all messages that it looks at have an identifier. -/
theorem reading_changes_nothing_iff (picojson : Picojson) :
    (∀ (u : Unserializer) (calls : List Accessor),
      Unchanged picojson u (u.afterAll picojson calls) ↔
        ∀ a ∈ calls, ∀ key ∈ u.keys a, u.has key = true) ∧
    (∀ (id : Bytes) (l : ListenerQueue Letter),
      (l.nextById id).2.q = l.q ↔ ∀ x ∈ searched id l.q, x.msg.has "id" = true) := by
  constructor
  · intro u calls
    rw [afterAll_eq, touchAll_unchanged_iff]
    simp only [List.mem_flatMap]
    constructor
    · exact fun every a called key looked => every key ⟨a, called, looked⟩
    · rintro every key ⟨a, called, looked⟩
      exact every a called key looked
  · intro id l
    rw [ListenerQueue.nextById]
    simp only [← asked_eq_iff]
    exact find_if_leaves id l.q

/-- A publication without an identifier. -/
def unnamed : Unserializer where
  json := ((Object.empty.insert (ascii "op") (.ofString (ascii "publish"))).insert
    (ascii "topic") (.ofString (ascii "/t"))).insert (ascii "msg") (.ofObject .empty)

def unnamed_text : Bytes := ascii "\x7b\"op\":\"publish\",\"topic\":\"/t\",\"msg\":\x7b\x7d\x7d"

/-- It gets one when it is searched for one. -/
theorem unnamed_is_changed :
    Unserializer.new picojson.package unnamed_text = .ok unnamed ∧
      ¬ Unchanged picojson.package unnamed (unnamed.afterAll picojson.package [.id]) ∧
      (data picojson.package (unnamed.afterAll picojson.package [.id])).1 ≠
        (data picojson.package unnamed).1 ∧
      (ListenerQueue.nextById (ascii "17") { q_size := 1, q := [⟨0, unnamed⟩] }).2.q ≠ [⟨0, unnamed⟩] := by
  have parsed : picojson.parse unnamed_text = .ok (.ofObject unnamed.json, []) := by decide +kernel
  have changed : (unnamed.id).2 ≠ unnamed := by
    rw [Ne, Unserializer.ext_iff]
    decide +kernel
  have texts : (data picojson.package (unnamed.afterAll picojson.package [.id])).1 ≠
      (data picojson.package unnamed).1 := by decide +kernel
  refine ⟨new_ok.mpr ⟨_, [], parsed, rfl⟩, fun same => texts same.2, texts, ?_⟩
  intro same
  exact changed (congrArg Letter.msg (List.cons.inj same).1)

end Rosbridge
