import Rosbridge.Listen.Dispatch
import Rosbridge.Queues

/-!
# Routing

A client with its listener queues, and the sequences of `attach` and `listen` calls on it. Nobody
takes anything out. Each queue then holds the latest of the messages for its name that arrived
after it was attached.
-/

namespace Rosbridge

structure Client where
  listeners : Listeners
  queues : Nat → ListenerQueue Unserializer

namespace Client

/-- The queue with index `q` is built with the size `queue_size q`. -/
def new (queue_size : Nat → Int32) : Client where
  listeners := .none
  queues q := .new (queue_size q)

def pushTo (queues : Nat → ListenerQueue Unserializer) (push : Nat × Unserializer) :
    Nat → ListenerQueue Unserializer :=
  Function.update queues push.1 ((queues push.1).push push.2)

inductive Call where
  | attach (q : Nat) (topic : Bytes)
  | listen (data : Bytes)

def step (picojson : Picojson) (c : Client) : Call → Except Exn Client
  | .attach q topic => return { c with listeners := c.listeners.attach q topic }
  | .listen data => do
    let pushes ← Rosbridge.listen picojson c.listeners data
    return { c with queues := pushes.foldl pushTo c.queues }

def run (picojson : Picojson) (c : Client) (calls : List Call) : Except Exn Client :=
  calls.foldlM (step picojson) c

def Call.attached? : Call → Option Nat
  | .attach q _ => some q
  | .listen _ => none

def Call.message? (picojson : Picojson) (names : Bytes → Bool) : Call → Option Unserializer
  | .attach _ _ => none
  | .listen data =>
    match Unserializer.new picojson data with
    | .error _ => none
    | .ok u =>
      match route u with
      | .ok (some name) => if names name then some u else none
      | _ => none

def received (picojson : Picojson) (names : Bytes → Bool) (calls : List Call) : List Unserializer :=
  calls.filterMap (Call.message? picojson names)

/-- These are the publications on the topic, and the calls and responses of the service. -/
theorem message?_listen {picojson : Picojson} {names : Bytes → Bool} {data : Bytes} {u : Unserializer} :
    Call.message? picojson names (.listen data) = some u ↔
      ∃ json err name, picojson.parse data = .ok (.ofObject json, err) ∧ Addressed json name ∧
        names name = true ∧ u = { json := json } := by
  constructor
  · intro found
    simp only [Call.message?] at found
    split at found
    · cases found
    · rename_i v read
      obtain ⟨json, err, parsed, rfl⟩ := Unserializer.new_ok.mp read
      split at found
      · rename_i name routed
        split at found
        · rename_i wanted
          obtain rfl := Option.some.inj found
          exact ⟨json, err, name, parsed, route_some.mp routed, wanted, rfl⟩
        · cases found
      · cases found
  · rintro ⟨json, err, name, parsed, addressed, wanted, rfl⟩
    have read := Unserializer.new_ok.mpr ⟨json, err, parsed, rfl⟩
    simp [Call.message?, read, route_some.mpr addressed, wanted]

/-! ### One queue of the client -/

theorem pushes_at (queues : Nat → ListenerQueue Unserializer) (u : Unserializer) (q : Nat)
    (targets : List Nat) :
    (targets.map fun target => (target, u)).foldl pushTo queues q =
      (List.replicate (targets.count q) u).foldl ListenerQueue.push (queues q) := by
  induction targets generalizing queues with
  | nil => rfl
  | cons target rest ih =>
    rw [List.map_cons, List.foldl_cons, ih]
    by_cases same : target = q
    · subst same
      rw [List.count_cons_self, List.replicate_succ, List.foldl_cons]
      simp [pushTo]
    · rw [List.count_cons_of_ne same]
      simp [pushTo, Function.update_of_ne (Ne.symm same)]

/-- Queue `q` is attached once under each of these names, and under no other. -/
def Attached (listeners : Listeners) (q : Nat) (names : Bytes → Bool) : Prop :=
  ∀ name, (listeners name).count q = if names name then 1 else 0

theorem attached_none (q : Nat) : Attached .none q (fun _ => false) := by
  intro name
  simp [Listeners.none]

theorem Attached.attach_self {listeners : Listeners} {q : Nat} (h : Attached listeners q fun _ => false)
    (topic : Bytes) : Attached (listeners.attach q topic) q (· = topic) := by
  intro name
  have before : (listeners name).count q = 0 := h name
  by_cases same : name = topic
  · subst same
    simp [Listeners.attach, before]
  · simp [Listeners.attach, same, before]

theorem Attached.attach_of_ne {listeners : Listeners} {q other : Nat} {names : Bytes → Bool}
    (h : Attached listeners q names) (different : other ≠ q) (topic : Bytes) :
    Attached (listeners.attach other topic) q names := by
  intro name
  rw [← h name, Listeners.attach]
  split
  · simp [different]
  · rfl

/-- What one call of `listen` does to a queue. -/
theorem listen_at {picojson : Picojson} {c c' : Client} {q : Nat} {names : Bytes → Bool} {data : Bytes}
    (attached : Attached c.listeners q names) (stepped : step picojson c (.listen data) = .ok c') :
    c'.listeners = c.listeners ∧
      c'.queues q = ((Call.message? picojson names (.listen data)).toList).foldl
        ListenerQueue.push (c.queues q) := by
  cases returned : Rosbridge.listen picojson c.listeners data with
  | error e => simp [step, returned, bind, Except.bind] at stepped
  | ok pushes =>
    obtain rfl : { c with queues := pushes.foldl pushTo c.queues } = c' := by
      simpa [step, returned, bind, Except.bind, pure, Except.pure] using stepped
    obtain ⟨u, target, built, routed, rfl⟩ := listen_ok.mp returned
    refine ⟨rfl, ?_⟩
    show (deliveries c.listeners u target).foldl pushTo c.queues q = _
    cases target with
    | none => simp [deliveries, Call.message?, built, routed]
    | some name =>
      rw [deliveries, pushes_at, attached name]
      cases wanted : names name <;> simp [Call.message?, built, routed, wanted]

/-- A queue is pushed what is received for its names, in order, while it is not attached again. -/
theorem run_at {picojson : Picojson} {q : Nat} {names : Bytes → Bool} {c final : Client}
    {calls : List Call} (attached : Attached c.listeners q names)
    (once : q ∉ calls.filterMap Call.attached?) (ran : run picojson c calls = .ok final) :
    Attached final.listeners q names ∧
      final.queues q = (received picojson names calls).foldl ListenerQueue.push (c.queues q) := by
  induction calls generalizing c with
  | nil =>
    obtain rfl : c = final := by simpa [run, pure, Except.pure] using ran
    exact ⟨attached, rfl⟩
  | cons call rest ih =>
    have ran' : (step picojson c call).bind (fun c' => run picojson c' rest) = .ok final := ran
    cases stepped : step picojson c call with
    | error e => simp [stepped, Except.bind] at ran'
    | ok c' =>
      rw [stepped] at ran'
      cases call with
      | attach other topic =>
        simp only [List.filterMap_cons, Call.attached?, List.mem_cons, not_or] at once
        obtain rfl : { c with listeners := c.listeners.attach other topic } = c' := by
          simpa [step, pure, Except.pure] using stepped
        have later := ih (attached.attach_of_ne (Ne.symm once.1) topic) once.2 ran'
        exact later
      | listen data =>
        obtain ⟨listeners, queue⟩ := listen_at attached stepped
        have later := ih (by rwa [listeners]) once ran'
        refine ⟨later.1, ?_⟩
        rw [later.2, queue, received, received, List.filterMap_cons]
        cases Call.message? picojson names (.listen data) <;> rfl

/-! ### What the queues hold in the end -/

/-- Pushing one after another keeps the latest, the ones already there included. -/
theorem contents_of_pushes (messages : List Unserializer) (l : ListenerQueue Unserializer)
    (fits : l.q.length ≤ l.capacity) :
    (messages.foldl ListenerQueue.push l).q = (l.q ++ messages).rtake l.capacity := by
  induction messages generalizing l with
  | nil => rw [List.foldl_nil, List.append_nil, Recent.rtake_of_length_le fits]
  | cons u rest ih =>
    have fits' : (l.push u).q.length ≤ (l.push u).capacity := by
      rw [l.push_q, Recent.length_rtake, ListenerQueue.push_capacity]
      exact Nat.min_le_left _ _
    rw [List.foldl_cons, ih _ fits', l.push_q, ListenerQueue.push_capacity,
      Recent.rtake_append_rtake, List.append_assoc]
    rfl

theorem run_append (picojson : Picojson) (c : Client) (before after : List Call) :
    run picojson c (before ++ after) =
      (run picojson c before).bind fun c' => run picojson c' after := by
  simp [run, List.foldlM_append, bind]

theorem received_nothing (picojson : Picojson) (calls : List Call) :
    received picojson (fun _ => false) calls = [] := by
  rw [received, List.filterMap_eq_nil_iff]
  intro call _
  cases call with
  | attach q topic => rfl
  | listen data =>
    rw [Option.eq_none_iff_forall_ne_some]
    intro u found
    obtain ⟨_, _, _, _, _, wanted, -⟩ := message?_listen.mp found
    cases wanted

/-- Each queue holds the latest of the messages for its name since it was attached, in order. -/
theorem queues_hold_the_latest {picojson : Picojson} {queue_size : Nat → Int32} {calls : List Call}
    {final : Client} (ran : run picojson (.new queue_size) calls = .ok final)
    (distinct : (calls.filterMap Call.attached?).Nodup) {before after : List Call} {q : Nat}
    {name : Bytes} (history : calls = before ++ .attach q name :: after) :
    (final.queues q).q = (received picojson (· = name) after).rtake (sizeT (queue_size q)) := by
  subst history
  rw [List.filterMap_append, List.filterMap_cons] at distinct
  obtain ⟨-, afterwards, apart⟩ := List.nodup_append.mp distinct
  have fresh : q ∉ before.filterMap Call.attached? := fun member =>
    apart q member q List.mem_cons_self rfl
  have once : q ∉ after.filterMap Call.attached? := (List.nodup_cons.mp afterwards).1
  rw [run_append] at ran
  cases ran₁ : run picojson (.new queue_size) before with
  | error e => simp [ran₁, Except.bind] at ran
  | ok c =>
    rw [ran₁] at ran
    have ran₂ : run picojson { c with listeners := c.listeners.attach q name } after = .ok final := ran
    obtain ⟨unattached, untouched⟩ := run_at (attached_none q) fresh ran₁
    obtain ⟨-, queue⟩ := run_at (unattached.attach_self name) once ran₂
    rw [received_nothing] at untouched
    have empty : c.queues q = .new (queue_size q) := untouched
    have fits : (c.queues q).q.length ≤ (c.queues q).capacity := by
      rw [empty]
      exact Nat.zero_le _
    have contents := contents_of_pushes (received picojson (· = name) after) (c.queues q) fits
    rw [queue]
    show ((received picojson (· = name) after).foldl ListenerQueue.push (c.queues q)).q = _
    rw [contents, empty]
    rfl

def publication (topic id : String) : Call :=
  .listen ((Serializer.topicMessage (ascii topic) .empty (ascii id)).serialized picojson.package)

/-- A queue before the first publication and one after it, a publication on another topic, and a
message of an operation that is not delivered. -/
def history : List Call :=
  [.attach 0 (ascii "/t"), publication "/t" "1", .attach 1 (ascii "/t"), publication "/u" "2",
    .listen (ascii "\x7b\"op\":\"status\"\x7d"), publication "/t" "3"]

theorem queues_hold_the_latest_history :
    ∃ final, run picojson.package (.new fun _ => 1) history = .ok final ∧
      (final.queues 0).q =
        (received picojson.package (· = ascii "/t") (history.drop 1)).rtake (sizeT 1) := by
  have ok : (run picojson.package (.new fun _ => 1) history).isOk = true := by decide +kernel
  cases ran : run picojson.package (.new fun _ => 1) history with
  | error e => simp [ran, Except.isOk, Except.toBool] at ok
  | ok final =>
    exact ⟨final, rfl, queues_hold_the_latest ran (by decide) (show history = [] ++ _ from rfl)⟩

end Client

end Rosbridge
