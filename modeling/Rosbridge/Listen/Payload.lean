import Rosbridge.Listen.Net

/-!
# What a subscriber can survive

`Subscriber::listener` asks every message for its payload, and has nothing to catch what that throws.
`listen` has looked at the operation and the name of the message only, and pushes it to all
endpoints with that name. A subscriber survives exactly the messages with an object in the field that
goes with the operation.
-/

namespace Rosbridge

def Value.isObject : Value → Bool
  | ⟨.object _, _⟩ => true
  | _ => false

theorem Value.isObject_iff {v : Value} : v.isObject = true ↔ ∃ o, v.getObject = .ok o := by
  obtain ⟨raw, ordered⟩ := v
  cases raw <;> simp [Value.isObject, Value.getObject]

namespace Listen

open Unserializer

def payloadKey : OP → Option String
  | .TopicPublishOp => some "msg"
  | .ServiceCallOp => some "args"
  | .ServiceResponseOp => some "values"
  | _ => none

/-- There is no object where the payload of the message should be. -/
def LacksPayload (u : Unserializer) : Bool :=
  match u.typeOf with
  | .error _ => true
  | .ok op => (payloadKey op).any fun key => !(u.json.read (ascii key)).isObject

def HasPayload (u : Unserializer) : Prop := ∃ payload, (u.payload).1 = .ok payload

theorem hasPayload_iff {u : Unserializer} : HasPayload u ↔ LacksPayload u = false := by
  have object (key : String) : (∃ o, (u.json.read (ascii key)).getObject = .ok o) ↔
      (!(u.json.read (ascii key)).isObject) = false := by
    rw [← Value.isObject_iff]
    simp
  unfold HasPayload
  rw [(payload_yields u).1, payloadOf, LacksPayload]
  cases u.typeOf with
  | error e => simp
  | ok op =>
    cases op with
    | TopicPublishOp => exact object "msg"
    | ServiceCallOp => exact object "args"
    | ServiceResponseOp => exact object "values"
    | _ => simp [payloadKey]

namespace Receiver

def isSubscriber : Receiver → Bool
  | subscriber _ => true
  | _ => false

end Receiver

namespace Net

/-- Every message that was pushed into the queue of a subscriber has a payload. -/
def SubscribersSurvive (net : Net) : Prop :=
  Each (fun r s => r.isSubscriber = true → ∀ u ∈ arrived s, HasPayload u) net

/-- The text is a message with the name of a subscriber and without a payload. -/
def Kills (picojson : Picojson) (net : Net) (data : Bytes) : Bool :=
  match Unserializer.new picojson data with
  | .error _ => false
  | .ok u =>
    match route u with
    | .ok (some name) =>
      LacksPayload u && net.receivers.any fun r => r.1.isSubscriber && r.1.name = name
    | _ => false

def Spares (picojson : Picojson) (net : Net) : Event → Bool
  | .inbound data => !Kills picojson net data
  | _ => true

/-! ### What one event does -/

abbrev Survives (r : Receiver) (s : State) : Prop := r.isSubscriber = true → ∀ u ∈ arrived s, HasPayload u

theorem survives_push {r : Receiver} {s : State} {u : Unserializer} :
    Survives r (Listen.push s u) ↔ Survives r s ∧ (r.isSubscriber = true → HasPayload u) := by
  simp only [Survives, arrived_push, List.mem_append, List.mem_singleton]
  constructor
  · intro every
    exact ⟨fun sub v old => every sub v (.inl old), fun sub => every sub u (.inr rfl)⟩
  · rintro ⟨before, now⟩ sub v (old | rfl)
    · exact before sub v old
    · exact now sub

theorem survives_modify {receivers : List (Receiver × State)} {i : Nat}
    {f : Receiver × State → Receiver × State} {P : Receiver → Prop}
    (one : ∀ r, Survives (f r).1 (f r).2 ↔ Survives r.1 r.2 ∧ P r.1) :
    (∀ r ∈ receivers.modify i f, Survives r.1 r.2) ↔
      (∀ r ∈ receivers, Survives r.1 r.2) ∧ ∀ r, receivers[i]? = some r → P r.1 := by
  constructor
  · intro every
    have here (r : Receiver × State) (found : receivers[i]? = some r) : Survives r.1 r.2 ∧ P r.1 := by
      refine (one r).mp (every (f r) (List.mem_iff_getElem?.mpr ⟨i, ?_⟩))
      rw [List.getElem?_modify_eq, found]
      rfl
    refine ⟨fun r member => ?_, fun r found => (here r found).2⟩
    obtain ⟨j, found⟩ := List.mem_iff_getElem?.mp member
    by_cases same : i = j
    · exact (here r (same ▸ found)).1
    · refine every r (List.mem_iff_getElem?.mpr ⟨j, ?_⟩)
      rw [List.getElem?_modify_ne _ _ same, found]
  · rintro ⟨before, now⟩
    exact each_modify before i fun r found h => (one r).mpr ⟨h, now r found⟩

theorem survives_deliver {receivers : List (Receiver × State)} {u : Unserializer} (targets : List Nat) :
    (∀ r ∈ (targets.map fun i => (i, u)).foldl deliver receivers, Survives r.1 r.2) ↔
      (∀ r ∈ receivers, Survives r.1 r.2) ∧
        ∀ i ∈ targets, ∀ r, (receivers.map Prod.fst)[i]? = some r → r.isSubscriber = true → HasPayload u := by
  induction targets generalizing receivers with
  | nil => simp
  | cons i rest ih =>
    rw [List.map_cons, List.foldl_cons, ih, deliver_fst, deliver,
      survives_modify (P := fun r => r.isSubscriber = true → HasPayload u) fun r => survives_push]
    have head : (∀ r, receivers[i]? = some r → r.1.isSubscriber = true → HasPayload u) ↔
        ∀ r, (receivers.map Prod.fst)[i]? = some r → r.isSubscriber = true → HasPayload u := by
      rw [List.getElem?_map]
      cases receivers[i]? <;> simp
    rw [head, and_assoc]
    simp only [List.forall_mem_cons]

theorem survives_act {receivers : List (Receiver × State)} (i : Nat) {e : Listen.Event}
    (other : ∀ msg, e ≠ .push msg) :
    (∀ r ∈ receivers.modify i (act e), Survives r.1 r.2) ↔ ∀ r ∈ receivers, Survives r.1 r.2 := by
  have one (r : Receiver × State) : Survives (act e r).1 (act e r).2 ↔ Survives r.1 r.2 ∧ True := by
    rw [and_true, act_fst]
    unfold act
    split
    · rfl
    · rw [Survives, Survives, arrived_step other]
  rw [survives_modify (P := fun _ => True) one]
  simp

theorem kills_iff {picojson : Picojson} {net : Net} {data : Bytes} {u : Unserializer} {name : Bytes}
    (wired : Wired net) (built : Unserializer.new picojson data = .ok u) (routed : route u = .ok (some name)) :
    (∀ i ∈ net.listeners name, ∀ r, (net.receivers.map Prod.fst)[i]? = some r →
        r.isSubscriber = true → HasPayload u) ↔ Kills picojson net data = false := by
  simp only [Kills, built, routed, hasPayload_iff]
  cases lacks : LacksPayload u with
  | false => simp
  | true =>
    simp only [Bool.true_and, List.any_eq_false, Bool.and_eq_true, decide_eq_true_eq, not_and]
    constructor
    · intro none r member sub named
      obtain ⟨i, found⟩ := List.mem_iff_getElem?.mp member
      have attached := wired.attached i r found
      rw [named] at attached
      have fed := none i attached r.1 (by rw [List.getElem?_map, found]; rfl) sub
      cases fed
    · intro none i attached r found sub
      obtain ⟨r', found', named⟩ := wired.named name i attached
      rw [List.getElem?_map, found'] at found
      obtain rfl := Option.some.inj found
      exact absurd named (none r' (List.mem_of_getElem? found') sub)

theorem survive_step {picojson : Picojson} {net : Net} (wired : Wired net) (e : Event) :
    SubscribersSurvive (step picojson net e) ↔ SubscribersSurvive net ∧ Spares picojson net e = true := by
  cases e with
  | attach r =>
    simp [SubscribersSurvive, Each, step, Spares, or_imp, forall_and]
  | inbound data =>
    simp only [step, Spares, Bool.not_eq_eq_eq_not, Bool.not_true]
    cases built : Unserializer.new picojson data with
    | error e => simp [listen, Kills, built, bind, Except.bind]
    | ok u =>
      rw [show listen picojson net.listeners data = (dispatch net.listeners u).1 by
        simp [listen, built, bind, Except.bind], dispatch_run]
      cases routed : route u with
      | error e => simp [Except.map, Kills, built, routed]
      | ok target =>
        cases target with
        | none => simp [Except.map, deliveries, Kills, built, routed]
        | some name =>
          rw [← kills_iff wired built routed]
          exact survives_deliver (net.listeners name)
  | listener i returned => simpa [SubscribersSurvive, Each, step, Spares] using survives_act i (by simp)
  | destroy i => simpa [SubscribersSurvive, Each, step, Spares] using survives_act i (by simp)

/-- Subscribers survive all that `listen` pushes to them exactly when no text kills one. -/
theorem subscribers_survive_iff (picojson : Picojson) (events : List Event) :
    SubscribersSurvive (run picojson {} events) ↔
      Machine.Along (step picojson) (fun net e => Spares picojson net e = true) {} events := by
  have whole := @Machine.run_iff_along Net Event (step picojson) Wired SubscribersSurvive
    (fun _ _ => True) (fun net e => Spares picojson net e = true)
    (fun net e wired _ => wired_step wired picojson e) (fun net e wired _ => survive_step wired e)
    {} events wired_start (Machine.along_of_forall _ fun _ _ => trivial)
  exact whole.trans (and_iff_right (by simp [SubscribersSurvive, Each]))

/-- A publication without `msg`. -/
def unfed : List Event :=
  [.attach (.subscriber { topic := ascii "/t", type := [] }),
    .inbound (ascii "\x7b\"op\":\"publish\",\"topic\":\"/t\"\x7d")] ++
    List.replicate 4 (.listener 0 (some .empty))

def Starved (r : Receiver × State) : Bool := r.1.isSubscriber && (arrived r.2).any LacksPayload

def Terminated (r : Receiver × State) : Bool :=
  match r.2.pc with
  | .terminated => true
  | _ => false

theorem not_survive_of_starved {net : Net} (starved : net.receivers.any Starved = true) :
    ¬ SubscribersSurvive net := by
  intro survive
  obtain ⟨r, member, starves⟩ := List.any_eq_true.mp starved
  obtain ⟨sub, lacks⟩ := Bool.and_eq_true_iff.mp starves
  obtain ⟨u, pushed, lacking⟩ := List.any_eq_true.mp lacks
  have fed := hasPayload_iff.mp (survive r member sub u pushed)
  rw [fed] at lacking
  cases lacking

/-- It ends the thread of the subscriber, and with it the process. -/
theorem unfed_is_killed :
    ¬ SubscribersSurvive (run picojson.package {} unfed) ∧
      ((run picojson.package {} unfed).receivers.any Terminated) = true :=
  ⟨not_survive_of_starved (by decide +kernel), by decide +kernel⟩

end Net

end Listen

end Rosbridge
