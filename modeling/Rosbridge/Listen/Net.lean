import Mathlib.Data.List.Nodup
import Rosbridge.Endpoint
import Rosbridge.Listen.Consumer
import Rosbridge.Listen.Dispatch

/-!
# A client with its endpoints

The endpoints of one client are attached in one map from names to queues, whatever their kind.
Inbound texts are dispatched to the queues, the receiver threads take from them, and destructors
end the threads. `each_run` is the induction rule for what holds of every endpoint by itself.
-/

namespace Rosbridge.Listen

open Unserializer

inductive Receiver where
  | subscriber (s : Subscriber)
  | serviceServer (s : ServiceServer)
  | serviceClient (c : ServiceClient)

namespace Receiver

/-- The name the listener queue is attached under. -/
def name : Receiver → Bytes
  | subscriber s => s.topic
  | serviceServer s => s.service
  | serviceClient c => c.service

def queue_size : Receiver → Int32
  | subscriber s => s.queue_size
  | serviceServer s => s.queue_size
  | serviceClient c => c.queue_size

/-- A `ServiceClient` has no thread. -/
def kind : Receiver → Option Kind
  | subscriber _ => some .subscriber
  | serviceServer s => some (.serviceServer s.service)
  | serviceClient _ => none

end Receiver

/-- The queue of the endpoint at position `i` has the index `i`. -/
structure Net where
  listeners : Listeners := .none
  receivers : List (Receiver × State) := []

namespace Net

inductive Event where
  | attach (r : Receiver)
  | inbound (data : Bytes)
  | listener (i : Nat) (returned : Option Object)
  | destroy (i : Nat)

def deliver (receivers : List (Receiver × State)) (push : Nat × Unserializer) :
    List (Receiver × State) :=
  receivers.modify push.1 fun r => (r.1, Listen.push r.2 push.2)

/-- An endpoint without a thread takes no step. -/
def act (e : Listen.Event) (r : Receiver × State) : Receiver × State :=
  match r.1.kind with
  | none => r
  | some kind => (r.1, Listen.step kind r.2 e)

def step (picojson : Picojson) (net : Net) : Event → Net
  | .attach r =>
    { listeners := net.listeners.attach net.receivers.length r.name
      receivers := net.receivers ++ [(r, start r.queue_size)] }
  | .inbound data =>
    match listen picojson net.listeners data with
    | .error _ => net
    | .ok pushes => { net with receivers := pushes.foldl deliver net.receivers }
  | .listener i returned => { net with receivers := net.receivers.modify i (act (.listener returned)) }
  | .destroy i => { net with receivers := net.receivers.modify i (act .shutdown) }

abbrev run (picojson : Picojson) (net : Net) (events : List Event) : Net :=
  Machine.run (step picojson) net events

/-! ### How the queues are wired -/

/-- The queues attached under a name are those of the endpoints with that name, each of them once. -/
structure Wired (net : Net) : Prop where
  named : ∀ name, ∀ i ∈ net.listeners name, ∃ r, net.receivers[i]? = some r ∧ r.1.name = name
  attached : ∀ i r, net.receivers[i]? = some r → i ∈ net.listeners r.1.name
  once : ∀ name, (net.listeners name).Nodup

theorem Wired.inside {net : Net} (h : Wired net) {name : Bytes} {i : Nat}
    (member : i ∈ net.listeners name) : i < net.receivers.length := by
  obtain ⟨r, found, -⟩ := h.named name i member
  exact (List.getElem?_eq_some_iff.mp found).1

theorem wired_start : Wired {} := by
  constructor <;> simp [Listeners.none]

theorem wired_attach {net : Net} (h : Wired net) (picojson : Picojson) (r : Receiver) :
    Wired (step picojson net (.attach r)) where
  named name i member := by
    simp only [step, Listeners.attach] at member ⊢
    have old : i ∈ net.listeners name → ∃ r', (net.receivers ++ [(r, start r.queue_size)])[i]? = some r' ∧
        r'.1.name = name := by
      intro member
      obtain ⟨r', found, named⟩ := h.named name i member
      exact ⟨r', by rw [List.getElem?_append_left (List.getElem?_eq_some_iff.mp found).1, found], named⟩
    split at member
    · rename_i same
      rcases List.mem_append.mp member with before | new
      · exact old before
      · rw [List.mem_singleton.mp new]
        exact ⟨_, List.getElem?_concat_length, same.symm⟩
    · exact old member
  attached i r' found := by
    simp only [step, Listeners.attach] at found ⊢
    rw [List.getElem?_append] at found
    split at found
    · have before := h.attached i r' found
      split
      · exact List.mem_append_left _ before
      · exact before
    · rename_i beyond
      obtain ⟨rfl, rfl⟩ : i = net.receivers.length ∧ (r, start r.queue_size) = r' := by
        rw [List.getElem?_singleton] at found
        split at found
        · exact ⟨by omega, Option.some.inj found⟩
        · cases found
      simp
  once name := by
    simp only [step, Listeners.attach]
    split
    · refine List.nodup_append.mpr ⟨h.once name, List.nodup_singleton _, fun i member j new => ?_⟩
      have inside := h.inside member
      rw [List.mem_singleton.mp new]
      omega
    · exact h.once name

/-- Only `attach` changes the endpoints. -/
theorem wired_congr {net : Net} (h : Wired net) {receivers : List (Receiver × State)}
    (same : receivers.map Prod.fst = net.receivers.map Prod.fst) :
    Wired { net with receivers := receivers } where
  named name i member := by
    obtain ⟨r, found, named⟩ := h.named name i member
    have kept : (receivers.map Prod.fst)[i]? = some r.1 := by rw [same, List.getElem?_map, found]; rfl
    rw [List.getElem?_map] at kept
    obtain ⟨r', found', endpoint⟩ := Option.map_eq_some_iff.mp kept
    exact ⟨r', found', by rw [endpoint, named]⟩
  attached i r found := by
    have kept : (net.receivers.map Prod.fst)[i]? = some r.1 := by
      rw [← same, List.getElem?_map, found]
      rfl
    rw [List.getElem?_map] at kept
    obtain ⟨r', found', endpoint⟩ := Option.map_eq_some_iff.mp kept
    rw [← endpoint]
    exact h.attached i r' found'
  once := h.once

theorem modify_fst (receivers : List (Receiver × State)) (i : Nat) {f : Receiver × State → Receiver × State}
    (same : ∀ r, (f r).1 = r.1) : (receivers.modify i f).map Prod.fst = receivers.map Prod.fst := by
  refine List.ext_getElem? fun j => ?_
  rw [List.getElem?_map, List.getElem?_map, List.getElem?_modify]
  cases receivers[j]? with
  | none => rfl
  | some r => by_cases here : i = j <;> simp [here, same]

theorem deliver_fst (receivers : List (Receiver × State)) (push : Nat × Unserializer) :
    (deliver receivers push).map Prod.fst = receivers.map Prod.fst :=
  modify_fst receivers push.1 fun _ => rfl

theorem deliveries_fst (receivers : List (Receiver × State)) (pushes : Pushes) :
    (pushes.foldl deliver receivers).map Prod.fst = receivers.map Prod.fst := by
  induction pushes generalizing receivers with
  | nil => rfl
  | cons push rest ih => rw [List.foldl_cons, ih, deliver_fst]

theorem act_fst (e : Listen.Event) (r : Receiver × State) : (act e r).1 = r.1 := by
  unfold act
  split <;> rfl

theorem wired_step {net : Net} (h : Wired net) (picojson : Picojson) (e : Event) :
    Wired (step picojson net e) := by
  cases e with
  | attach r => exact wired_attach h picojson r
  | inbound data =>
    unfold step
    dsimp only
    split
    · exact h
    · exact wired_congr h (deliveries_fst _ _)
  | listener i returned => exact wired_congr h (modify_fst _ _ (act_fst _))
  | destroy i => exact wired_congr h (modify_fst _ _ (act_fst _))

/-! ### What holds of every endpoint by itself -/

def Each (Q : Receiver → State → Prop) (net : Net) : Prop := ∀ r ∈ net.receivers, Q r.1 r.2

theorem each_modify {Q : Receiver → State → Prop} {receivers : List (Receiver × State)}
    (h : ∀ r ∈ receivers, Q r.1 r.2) (i : Nat) {f : Receiver × State → Receiver × State}
    (keep : ∀ r, receivers[i]? = some r → Q r.1 r.2 → Q (f r).1 (f r).2) :
    ∀ r ∈ receivers.modify i f, Q r.1 r.2 := by
  intro r member
  obtain ⟨j, found⟩ := List.mem_iff_getElem?.mp member
  by_cases here : i = j
  · subst here
    rw [List.getElem?_modify_eq] at found
    obtain ⟨r', found', rfl⟩ := Option.map_eq_some_iff.mp found
    exact keep r' found' (h r' (List.mem_of_getElem? found'))
  · rw [List.getElem?_modify_ne _ _ here] at found
    exact h r (List.mem_of_getElem? found)

/-- The queues that a message is pushed to are those of the endpoints with its name. -/
theorem each_deliver {Q : Receiver → State → Prop} {listeners : Listeners} {u : Unserializer} {name : Bytes}
    {receivers : List (Receiver × State)} (wired : Wired ⟨listeners, receivers⟩)
    (h : ∀ r ∈ receivers, Q r.1 r.2)
    (push : ∀ r ∈ receivers.map Prod.fst, r.name = name → ∀ s, Q r s → Q r (Listen.push s u))
    {targets : List Nat} (attached : ∀ i ∈ targets, i ∈ listeners name) :
    ∀ r ∈ (targets.map fun i => (i, u)).foldl deliver receivers, Q r.1 r.2 := by
  induction targets generalizing receivers with
  | nil => exact h
  | cons i rest ih =>
    rw [List.map_cons, List.foldl_cons]
    obtain ⟨r, found, named⟩ := wired.named name i (attached i List.mem_cons_self)
    have endpoints : (deliver receivers (i, u)).map Prod.fst = receivers.map Prod.fst := deliver_fst _ _
    refine ih (wired_congr wired endpoints) ?_ (by rw [endpoints]; exact push)
      fun j member => attached j (List.mem_cons_of_mem _ member)
    refine each_modify h i fun r' found' holds => ?_
    obtain rfl : r = r' := Option.some.inj (found.symm.trans found')
    exact push r.1 (List.mem_map_of_mem (List.mem_of_getElem? found)) named r.2 holds

theorem each_step {Q : Receiver → State → Prop} {picojson : Picojson} {net : Net} {e : Event}
    (wired : Wired net) (h : Each Q net)
    (start : ∀ r, Q r (Listen.start r.queue_size))
    (push : ∀ data u r s, e = .inbound data → Unserializer.new picojson data = .ok u →
      route u = .ok (some r.name) → r ∈ net.receivers.map Prod.fst → Q r s → Q r (Listen.push s u))
    (thread : ∀ r kind s e', r.kind = some kind → (∀ msg, e' ≠ .push msg) → Q r s →
      Q r (Listen.step kind s e')) : Each Q (step picojson net e) := by
  have acts (i : Nat) (e' : Listen.Event) (other : ∀ msg, e' ≠ .push msg) :
      ∀ r ∈ net.receivers.modify i (act e'), Q r.1 r.2 := by
    refine each_modify h i fun r _ holds => ?_
    unfold act
    split
    · exact holds
    · rename_i kind threaded
      exact thread r.1 kind r.2 e' threaded other holds
  cases e with
  | attach r =>
    intro r' member
    rcases List.mem_append.mp member with before | new
    · exact h r' before
    · rw [List.mem_singleton.mp new]
      exact start r
  | inbound data =>
    unfold step
    dsimp only
    split
    · exact h
    · rename_i pushes returned
      obtain ⟨u, target, built, routed, rfl⟩ := listen_ok.mp returned
      cases target with
      | none => exact h
      | some name =>
        refine each_deliver wired h (fun r member named s => ?_) fun i member => member
        exact push data u r s rfl built (named ▸ routed) member
  | listener i returned => exact acts i _ (by simp)
  | destroy i => exact acts i _ (by simp)

end Net

/-! ### What was pushed into a queue -/

def Entry.arrived? : Entry → Option Unserializer
  | .pushed x => some x.msg
  | _ => none

def arrived (s : State) : List Unserializer := s.log.filterMap Entry.arrived?

theorem arrived_append (log new : List Entry) :
    (log ++ new).filterMap Entry.arrived? = log.filterMap Entry.arrived? ++ new.filterMap Entry.arrived? :=
  List.filterMap_append

@[simp] theorem arrived_start (queue_size : Int32) : arrived (start queue_size) = [] := rfl

@[simp] theorem arrived_push (s : State) (msg : Unserializer) : arrived (push s msg) = arrived s ++ [msg] := by
  simp [arrived, push, Entry.arrived?]

theorem arrived_listener (kind : Kind) (s : State) (returned : Option Object) :
    arrived (listener kind s returned) = arrived s := by
  have moves := listener_moves kind s returned
  generalize listener kind s returned = t at moves
  unfold arrived
  cases moves with
  | calls x payload pc value => rw [arrived_append]; simp [Entry.arrived?, List.filterMap_cons]
  | answers x payload msg pc => rw [arrived_append]; simp [Entry.arrived?, List.filterMap_cons]
  | pops x removed queue pc next pop => rw [arrived_append]; simp [Entry.arrived?, List.filterMap_cons]
  | _ => rfl

theorem arrived_step {kind : Kind} {s : State} {e : Event} (other : ∀ msg, e ≠ .push msg) :
    arrived (step kind s e) = arrived s := by
  unfold step
  split
  · rfl
  · exact absurd rfl (other _)
  · rfl
  · exact arrived_listener kind s _

namespace Net

/-- The endpoint is still there, and nothing that arrived is forgotten. -/
def Keeps (receivers after : List (Receiver × State)) : Prop :=
  ∀ (i : Nat) (r : Receiver × State), receivers[i]? = some r →
    ∃ r' : Receiver × State, after[i]? = some r' ∧ r'.1 = r.1 ∧ ∀ u ∈ arrived r.2, u ∈ arrived r'.2

theorem keeps_refl (receivers : List (Receiver × State)) : Keeps receivers receivers :=
  fun _ r found => ⟨r, found, rfl, fun _ member => member⟩

theorem keeps_modify (receivers : List (Receiver × State)) (i : Nat) {f : Receiver × State → Receiver × State}
    (same : ∀ r, (f r).1 = r.1) (keep : ∀ r, ∀ u ∈ arrived r.2, u ∈ arrived (f r).2) :
    Keeps receivers (receivers.modify i f) := by
  intro j r found
  by_cases here : i = j
  · subst here
    exact ⟨f r, by rw [List.getElem?_modify_eq, found]; rfl, same r, keep r⟩
  · exact ⟨r, by rw [List.getElem?_modify_ne _ _ here, found], rfl, fun _ member => member⟩

theorem keeps_trans {first second third : List (Receiver × State)} (h : Keeps first second)
    (h' : Keeps second third) : Keeps first third := by
  intro i r found
  obtain ⟨r', found', same, keep⟩ := h i r found
  obtain ⟨r'', found'', same', keep'⟩ := h' i r' found'
  exact ⟨r'', found'', same'.trans same, fun u member => keep' u (keep u member)⟩

theorem keeps_deliveries (receivers : List (Receiver × State)) (pushes : Pushes) :
    Keeps receivers (pushes.foldl deliver receivers) := by
  induction pushes generalizing receivers with
  | nil => exact keeps_refl receivers
  | cons push rest ih =>
    rw [List.foldl_cons]
    have one : Keeps receivers (deliver receivers push) := by
      refine keeps_modify receivers push.1 (fun _ => rfl) fun r u member => ?_
      rw [arrived_push]
      exact List.mem_append_left _ member
    exact keeps_trans one (ih _)

theorem keeps_act (receivers : List (Receiver × State)) (i : Nat) {e : Listen.Event}
    (other : ∀ msg, e ≠ .push msg) : Keeps receivers (receivers.modify i (act e)) := by
  refine keeps_modify receivers i (act_fst e) fun r u member => ?_
  unfold act
  split
  · exact member
  · rw [arrived_step other]
    exact member

theorem keeps_step (picojson : Picojson) (net : Net) (e : Event) :
    Keeps net.receivers (step picojson net e).receivers := by
  cases e with
  | attach r =>
    intro i r' found
    have inside := (List.getElem?_eq_some_iff.mp found).1
    exact ⟨r', (List.getElem?_append_left inside).trans found, rfl, fun _ member => member⟩
  | inbound data =>
    unfold step
    dsimp only
    split
    · exact keeps_refl _
    · exact keeps_deliveries _ _
  | listener i returned => exact keeps_act _ i (by simp)
  | destroy i => exact keeps_act _ i (by simp)

end Net

end Rosbridge.Listen
