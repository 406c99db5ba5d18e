import Rosbridge.Serializer

/-!
# Incoming messages (`unserializer.h`)

The accessors go through the `operator[]` of `std::map`, which inserts a null for a missing key,
also when the accessor then throws. So an accessor yields its result or an exception, and the
message it leaves behind. `typeOf`, `topicOf` and their like are the results alone, as functions
of what `operator[]` reads.
-/

namespace Rosbridge

@[ext] structure Unserializer where
  json : Object

abbrev Access (α : Type) := ExceptT Exn (StateM Unserializer) α

namespace Unserializer

variable {α β : Type}

/-- The error text of `parse` is only logged. -/
def new (picojson : Picojson) (message : Bytes) : Except Exn Unserializer := do
  let (v, _err) ← picojson.parse message
  let json ← v.getObject
  return { json := json }

/-- `this->json[key].get<T>()` -/
def get (as : Value → Except Exn α) (key : String) : Access α := fun u =>
  (as (u.json.read (ascii key)), { json := u.json.touch (ascii key) })

def id : Access Bytes := do
  if !(← get (fun v => .ok v.isString) "id") then return []
  get Value.getString "id"

def type : Access OP := do
  let value ← get Value.getString "op"
  return stringToOP value

/-- The shape of `result`, `topic` and `service`: a check on the operation, then the field. -/
def guarded (isOP : OP → Bool) (as : Value → Except Exn α) (key : String) : Access α := do
  if !isOP (← type) then
    throw (.runtime_error ("Message of this type does not contain '" ++ key ++ "' field."))
  get as key

def result : Access Bool := guarded (fun op => op = .ServiceResponseOp) Value.getBool "result"

def topic : Access Bytes := guarded isTopicOP Value.getString "topic"

def service : Access Bytes := guarded isServiceOP Value.getString "service"

def data (picojson : Picojson) : Access Bytes := fun u => (.ok (u.json.to_string picojson), u)

def payload : Access Object := do
  if .TopicPublishOp = (← type) then
    return ← get Value.getObject "msg"
  if .ServiceCallOp = (← type) then
    return ← get Value.getObject "args"
  if .ServiceResponseOp = (← type) then
    return ← get Value.getObject "values"
  return .empty

/-! ### Results without the side effect -/

def idOf (u : Unserializer) : Bytes :=
  match (u.json.read (ascii "id")).getString with
  | .ok s => s
  | .error _ => []

def typeOf (u : Unserializer) : Except Exn OP :=
  (u.json.read (ascii "op")).getString.map stringToOP

def guardedOf (isOP : OP → Bool) (as : Value → Except Exn α) (key : String) (u : Unserializer) :
    Except Exn α :=
  match u.typeOf with
  | .error e => .error e
  | .ok op =>
    if isOP op then as (u.json.read (ascii key))
    else .error (.runtime_error ("Message of this type does not contain '" ++ key ++ "' field."))

def resultOf : Unserializer → Except Exn Bool :=
  guardedOf (fun op => op = .ServiceResponseOp) Value.getBool "result"

def topicOf : Unserializer → Except Exn Bytes := guardedOf isTopicOP Value.getString "topic"

def serviceOf : Unserializer → Except Exn Bytes := guardedOf isServiceOP Value.getString "service"

def payloadOf (u : Unserializer) : Except Exn Object :=
  match u.typeOf with
  | .error e => .error e
  | .ok .TopicPublishOp => (u.json.read (ascii "msg")).getObject
  | .ok .ServiceCallOp => (u.json.read (ascii "args")).getObject
  | .ok .ServiceResponseOp => (u.json.read (ascii "values")).getObject
  | .ok _ => .ok .empty

theorem new_ok {picojson : Picojson} {message : Bytes} {u : Unserializer} :
    new picojson message = .ok u ↔
      ∃ json err, picojson.parse message = .ok (.ofObject json, err) ∧ u = { json := json } := by
  constructor
  · intro built
    cases parsed : picojson.parse message with
    | error e => simp [new, parsed, bind, Except.bind] at built
    | ok result =>
      obtain ⟨v, err⟩ := result
      cases object : v.getObject with
      | error e => simp [new, parsed, object, bind, Except.bind] at built
      | ok json =>
        obtain rfl := Value.getObject_ok.mp object
        refine ⟨json, err, rfl, ?_⟩
        simpa [new, parsed, bind, Except.bind, pure, Except.pure] using built.symm
  · rintro ⟨json, err, parsed, rfl⟩
    simp [new, parsed, bind, Except.bind, pure, Except.pure]

theorem typeOf_ok {u : Unserializer} {op : OP} :
    u.typeOf = .ok op ↔ ∃ name, u.json.read (ascii "op") = .ofString name ∧ stringToOP name = op := by
  unfold typeOf
  cases field : (u.json.read (ascii "op")).getString with
  | error e =>
    have isNot : ∀ name, u.json.read (ascii "op") ≠ .ofString name := by
      intro name same
      simp [same] at field
    simp [Except.map, isNot]
  | ok name =>
    rw [Value.getString_ok.mp field]
    constructor
    · intro same
      exact ⟨name, rfl, by simpa [Except.map] using same⟩
    · rintro ⟨name', same, rfl⟩
      rw [Value.ofString_injective same]
      rfl

/-- Two messages that `operator[]` cannot tell apart. -/
def SameReads (u v : Unserializer) : Prop := ∀ key, v.json.read key = u.json.read key

/-- What an accessor returns or throws, and that it leaves every field as `operator[]` reads it. -/
def Yields (f : Access α) (value : Unserializer → Except Exn α) : Prop :=
  ∀ u, (f u).1 = value u ∧ SameReads u (f u).2

theorem get_run (as : Value → Except Exn α) (key : String) (u : Unserializer) :
    get as key u = (as (u.json.read (ascii key)), { json := u.json.touch (ascii key) }) := rfl

theorem bind_run (f : Access α) (g : α → Access β) (u : Unserializer) :
    (f >>= g) u = match f u with
      | (.ok a, v) => g a v
      | (.error e, v) => (.error e, v) := by
  show (ExceptT.bind f g) u = _
  simp only [ExceptT.bind, ExceptT.mk, ExceptT.bindCont, bind, StateT.bind]
  cases f u with
  | mk r v => cases r <;> rfl

theorem pure_run (a : α) (u : Unserializer) : (pure a : Access α) u = (.ok a, u) := rfl

theorem throw_run (e : Exn) (u : Unserializer) : (throw e : Access α) u = (.error e, u) := rfl

theorem type_run (u : Unserializer) :
    type u = (u.typeOf, { json := u.json.touch (ascii "op") }) := by
  rw [type, bind_run, get_run, typeOf]
  cases (u.json.read (ascii "op")).getString <;> rfl

@[simp] theorem typeOf_touch (json : Object) (key : Bytes) :
    typeOf { json := json.touch key } = typeOf { json := json } := by simp [typeOf]

theorem type_yields : Yields type typeOf := by
  intro u
  rw [type_run]
  exact ⟨rfl, fun key => Object.read_touch _ _ _⟩

theorem id_yields : Yields id (fun u => .ok u.idOf) := by
  intro u
  simp only [id, bind_run, get_run, idOf]
  cases h : u.json.read (ascii "id") with
  | mk raw ordered =>
    cases raw <;>
      simp [Value.isString, Value.getString, pure_run, get_run, SameReads, h]

theorem guarded_yields (isOP : OP → Bool) (as : Value → Except Exn α) (key : String) :
    Yields (guarded isOP as key) (guardedOf isOP as key) := by
  intro u
  unfold guarded guardedOf
  rw [bind_run, type_run]
  cases u.typeOf with
  | error e => exact ⟨rfl, fun key => Object.read_touch _ _ _⟩
  | ok op =>
    cases allowed : isOP op with
    | false => simp [allowed, bind_run, throw_run, SameReads]
    | true => simp [allowed, get_run, SameReads]

theorem result_yields : Yields result resultOf := guarded_yields _ _ _
theorem topic_yields : Yields topic topicOf := guarded_yields _ _ _
theorem service_yields : Yields service serviceOf := guarded_yields _ _ _

theorem payload_yields : Yields payload payloadOf := by
  intro u
  unfold payload payloadOf
  rw [bind_run, type_run]
  cases known : u.typeOf with
  | error e => exact ⟨rfl, fun key => Object.read_touch _ _ _⟩
  | ok op =>
    cases op <;> simp [bind_run, type_run, pure_run, get_run, SameReads, known]

end Unserializer
end Rosbridge
