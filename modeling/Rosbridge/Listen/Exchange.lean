import Rosbridge.Listen.Answers
import Rosbridge.Listen.Server
import Rosbridge.Wire

/-!
# A call from end to end

One client has the `ServiceClient`s, another the `ServiceServer`s. Between them is whatever passes the
texts on: it may lose them, repeat them and change their order, as long as it does not alter them.
A call that returns an object returns what the callback of a server of its service made of its input.
-/

namespace Rosbridge.Listen

open Unserializer

/-! ### The side of the server -/

/-- A response is what the callback made of a request that came in. -/
structure Served (r : Receiver) (s : State) : Prop where
  came : ∀ x, s.pc.taken = some x ∨ x ∈ s.queue.q → x.msg ∈ arrived s
  begun : ∀ x payload, s.pc = .callback x payload → .called x payload ∈ s.log
  called : ∀ x payload, .called x payload ∈ s.log → x.msg ∈ arrived s ∧ (x.msg.payload).1 = .ok payload
  responded : ∀ x msg, .responded x msg ∈ s.log → ∃ server payload values,
    r = .serviceServer server ∧ .called x payload ∈ s.log ∧
      msg = .serviceResponse server.service values true x.msg.idOf

theorem served_start (r : Receiver) : Served r (start r.queue_size) := by
  constructor <;> simp [start, ListenerQueue.new, Pc.taken]

theorem served_push {r : Receiver} {s : State} (h : Served r s) (msg : Unserializer) : Served r (push s msg) where
  came x held := by
    rw [arrived_push, List.mem_append]
    rcases held with taken | queued
    · exact .inl (h.came x (.inl taken))
    · rcases mem_of_push (.inr queued) with old | rfl
      · exact .inl (h.came x (.inr old))
      · exact .inr List.mem_cons_self
  begun x payload pc := (mem_push_log msg (by simp)).mpr (h.begun x payload pc)
  called x payload member := by
    obtain ⟨arrived, value⟩ := h.called x payload ((mem_push_log msg (by simp)).mp member)
    rw [arrived_push]
    exact ⟨List.mem_append_left _ arrived, value⟩
  responded x response member := by
    obtain ⟨server, payload, values, same, called, made⟩ :=
      h.responded x response ((mem_push_log msg (by simp)).mp member)
    exact ⟨server, payload, values, same, (mem_push_log msg (by simp)).mpr called, made⟩

/-- Only a `ServiceServer` responds, and only when its callback has returned. -/
theorem responded_listener {kind : Kind} {s : State} {returned : Option Object} {x : Letter} {msg : Serializer}
    (member : .responded x msg ∈ (listener kind s returned).log) :
    .responded x msg ∈ s.log ∨ ∃ service payload values, kind = .serviceServer service ∧
      s.pc = .callback x payload ∧ msg = .serviceResponse service values true x.msg.idOf := by
  unfold listener at member
  cases pc : s.pc with
  | callback y payload =>
    rw [pc] at member
    dsimp only at member
    split at member
    · exact .inl member
    · exact .inl member
    · rename_i service values
      rw [response_eq] at member
      rcases List.mem_append.mp member with old | new
      · exact .inl old
      · obtain ⟨rfl, rfl⟩ := Entry.responded.inj (List.mem_singleton.mp new)
        exact .inr ⟨service, payload, values, rfl, rfl, rfl⟩
    · exact .inl member
  | check =>
    rw [pc] at member
    dsimp only at member
    split at member <;> exact .inl member
  | empty =>
    rw [pc] at member
    dsimp only at member
    split at member <;> exact .inl member
  | next =>
    rw [pc] at member
    dsimp only at member
    split at member <;> exact .inl member
  | payload y =>
    rw [pc] at member
    dsimp only at member
    split at member
    · exact .inl (by simpa using member)
    · exact .inl member
    · exact .inl member
  | pop y =>
    rw [pc] at member
    dsimp only at member
    split at member
    · exact .inl (by simpa using member)
    · exact .inl member
  | done | terminated | undefined =>
    rw [pc] at member
    exact .inl member

theorem served_listener {r : Receiver} {kind : Kind} {s : State} (h : Served r s) (threaded : r.kind = some kind)
    (returned : Option Object) : Served r (listener kind s returned) := by
  have same := arrived_listener kind s returned
  have responded := @responded_listener kind s returned
  have moves := listener_moves kind s returned
  generalize listener kind s returned = t at moves same responded
  -- No step takes a message that did not come in.
  have steps (held : ∀ x, t.pc.taken = some x ∨ x ∈ t.queue.q → s.pc.taken = some x ∨ x ∈ s.queue.q)
      (begun : ∀ x payload, t.pc = .callback x payload → .called x payload ∈ t.log)
      (called : ∀ x payload, .called x payload ∈ t.log → .called x payload ∈ s.log ∨
        s.pc = .payload x ∧ (x.msg.payload).1 = .ok payload)
      (grows : ∀ x payload, .called x payload ∈ s.log → .called x payload ∈ t.log) : Served r t := by
    refine ⟨fun x member => ?_, begun, fun x payload member => ?_, fun x msg member => ?_⟩
    · rw [same]
      exact h.came x (held x member)
    · rw [same]
      rcases called x payload member with old | ⟨pc, value⟩
      · exact h.called x payload old
      · exact ⟨h.came x (.inl (by rw [pc]; rfl)), value⟩
    · rcases responded member with old | ⟨service, payload, values, server, pc, made⟩
      · obtain ⟨server, payload, values, same, called, made⟩ := h.responded x msg old
        exact ⟨server, payload, values, same, grows x payload called, made⟩
      · cases r with
        | serviceServer server' =>
          rw [server] at threaded
          obtain rfl : server'.service = service := by simpa [Receiver.kind] using threaded
          exact ⟨server', payload, values, rfl, grows x payload (h.begun x payload pc), made⟩
        | subscriber sub =>
          rw [server] at threaded
          cases threaded
        | serviceClient client => cases threaded
  cases moves with
  | stays => exact h
  | @rests pc' before after =>
    refine steps (fun x => ?_) (fun x payload now => ?_) (fun _ _ => .inl) fun _ _ => id
    · rintro (taken | queued)
      · rw [after] at taken
        cases taken
      · exact .inr queued
    · obtain rfl : pc' = .callback x payload := now
      cases after
  | reads x pc next =>
    refine steps (fun y => ?_) (by simp) (fun _ _ => .inl) fun _ _ => id
    rintro (taken | queued)
    · obtain rfl : x = y := by simpa [Pc.taken] using taken
      exact .inr (List.mem_of_head? next)
    · exact .inr queued
  | calls x payload pc value =>
    refine steps (fun y => ?_) (fun y payload' now => ?_) (fun y payload' member => ?_) fun y payload' old =>
      List.mem_append_left _ old
    · rintro (taken | queued)
      · obtain rfl : x = y := by simpa [Pc.taken] using taken
        exact .inl (by rw [pc]; rfl)
      · exact .inr queued
    · obtain ⟨rfl, rfl⟩ := Pc.callback.inj now
      exact List.mem_append_right _ List.mem_cons_self
    · rcases List.mem_append.mp member with old | new
      · exact .inl old
      · obtain ⟨rfl, rfl⟩ := Entry.called.inj (List.mem_singleton.mp new)
        exact .inr ⟨pc, value⟩
  | drops x service e server pc thrown =>
    refine steps (fun y => ?_) (by simp) (fun _ _ => .inl) fun _ _ => id
    rw [pc]
    exact id
  | returns x payload pc =>
    refine steps (fun y => ?_) (by simp) (fun _ _ => .inl) fun _ _ => id
    rw [pc]
    exact id
  | answers x payload msg pc =>
    refine steps (fun y => ?_) (by simp) (fun y payload' member => .inl (by simpa using member)) fun _ _ old =>
      List.mem_append_left _ old
    rw [pc]
    exact id
  | terminates x held =>
    refine steps (fun y => ?_) (by simp) (fun _ _ => .inl) fun _ _ => id
    rintro (taken | queued)
    · cases taken
    · exact .inr queued
  | pops x removed queue pc next pop =>
    obtain ⟨y, rest, contents, rfl⟩ := ListenerQueue.pop_cases pop
    refine steps (fun z => ?_) (by simp) (fun z payload' member => .inl (by simpa using member)) fun _ _ old =>
      List.mem_append_left _ old
    rintro (taken | queued)
    · cases taken
    · exact .inr (by rw [contents]; exact List.mem_cons_of_mem _ queued)
  | stuck x pc empty =>
    refine steps (fun y => ?_) (by simp) (fun _ _ => .inl) fun _ _ => id
    rintro (taken | queued)
    · cases taken
    · exact .inr queued

theorem served_step {r : Receiver} {kind : Kind} {s : State} (h : Served r s) (threaded : r.kind = some kind)
    (e : Event) : Served r (step kind s e) := by
  unfold step
  split
  · exact h
  · exact served_push h _
  · exact ⟨h.came, h.begun, h.called, h.responded⟩
  · exact served_listener h threaded _

/-! ### What stays -/

theorem mem_responses {log : List Entry} {msg : Serializer} :
    msg ∈ responses log ↔ ∃ x, .responded x msg ∈ log := by
  unfold responses
  rw [List.mem_filterMap]
  constructor
  · rintro ⟨entry, member, response⟩
    cases entry with
    | responded x msg' =>
      obtain rfl := Option.some.inj response
      exact ⟨x, member⟩
    | _ => cases response
  · rintro ⟨x, member⟩
    exact ⟨_, member, rfl⟩

theorem log_push (s : State) (msg : Unserializer) : s.log ⊆ (push s msg).log :=
  List.subset_append_left _ _

theorem log_step (kind : Kind) (s : State) (e : Event) : s.log ⊆ (step kind s e).log := by
  unfold step
  split
  · exact fun _ => id
  · exact log_push s _
  · exact fun _ => id
  · rename_i returned _
    have moves := listener_moves kind s returned
    generalize listener kind s returned = t at moves
    cases moves with
    | calls x payload pc value => exact List.subset_append_left _ _
    | answers x payload msg pc => exact List.subset_append_left _ _
    | pops x removed queue pc next pop => exact List.subset_append_left _ _
    | _ => exact fun _ => id

namespace Net

def Logs (receivers after : List (Receiver × State)) : Prop :=
  ∀ r ∈ receivers, ∃ r' ∈ after, r'.1 = r.1 ∧ r.2.log ⊆ r'.2.log

theorem logs_refl (receivers : List (Receiver × State)) : Logs receivers receivers :=
  fun r member => ⟨r, member, rfl, fun _ => id⟩

theorem logs_modify (receivers : List (Receiver × State)) (i : Nat) {f : Receiver × State → Receiver × State}
    (same : ∀ r, (f r).1 = r.1) (grows : ∀ r, r.2.log ⊆ (f r).2.log) : Logs receivers (receivers.modify i f) := by
  intro r member
  obtain ⟨j, found⟩ := List.mem_iff_getElem?.mp member
  by_cases here : i = j
  · subst here
    refine ⟨f r, List.mem_iff_getElem?.mpr ⟨i, ?_⟩, same r, grows r⟩
    rw [List.getElem?_modify_eq, found]
    rfl
  · refine ⟨r, List.mem_iff_getElem?.mpr ⟨j, ?_⟩, rfl, fun _ => id⟩
    rw [List.getElem?_modify_ne _ _ here, found]

theorem logs_deliveries (receivers : List (Receiver × State)) (pushes : Pushes) :
    Logs receivers (pushes.foldl deliver receivers) := by
  induction pushes generalizing receivers with
  | nil => exact logs_refl receivers
  | cons push rest ih =>
    intro r member
    have one : Logs receivers (deliver receivers push) :=
      logs_modify receivers push.1 (fun _ => rfl) fun r => log_push r.2 push.2
    obtain ⟨r', member', same, grows⟩ := one r member
    obtain ⟨r'', member'', same', grows'⟩ := ih (deliver receivers push) r' member'
    exact ⟨r'', member'', same'.trans same, fun _ entry => grows' (grows entry)⟩

theorem logs_step (picojson : Picojson) (net : Net) (e : Event) :
    Logs net.receivers (step picojson net e).receivers := by
  have acts (i : Nat) (e' : Listen.Event) : Logs net.receivers (net.receivers.modify i (act e')) := by
    refine logs_modify _ i (act_fst e') fun r => ?_
    unfold act
    split
    · exact fun _ => id
    · exact log_step _ _ _
  cases e with
  | attach r => exact fun r' member => ⟨r', List.mem_append_left _ member, rfl, fun _ => id⟩
  | inbound data =>
    unfold step
    dsimp only
    split
    · exact logs_refl _
    · exact logs_deliveries _ _
  | listener i returned => exact acts i _
  | destroy i => exact acts i _

end Net

namespace Calls

def requests (s : Calls) : List (Nat × Serializer) := s.calls.map fun c => (c.client, c.request)

def arrivals (s : Calls) : List (Receiver × List Unserializer) :=
  s.net.receivers.map fun r => (r.1, arrived r.2)

theorem requests_settle (s : Calls) (k : Nat) (outcome : Outcome) :
    (s.settle k outcome).requests = s.requests := by
  refine List.ext_getElem? fun j => ?_
  rw [requests, requests, settle, List.getElem?_map, List.getElem?_map, List.getElem?_modify]
  cases s.calls[j]? with
  | none => rfl
  | some c => by_cases here : k = j <;> simp [here]

/-- A poll changes no request, and nothing of what came in. -/
theorem poll_frame (s : Calls) (k : Nat) (expired : Bool) :
    (s.step picojson.package (.poll k expired)).requests = s.requests ∧
      (s.step picojson.package (.poll k expired)).arrivals = s.arrivals := by
  unfold step
  dsimp only
  split
  · exact ⟨rfl, rfl⟩
  · rename_i c here
    unfold turn
    split
    · split
      · exact ⟨requests_settle _ _ _, rfl⟩
      · refine ⟨requests_settle _ _ _, List.ext_getElem? fun j => ?_⟩
        simp only [arrivals, settle, List.getElem?_map, List.getElem?_modify]
        cases s.net.receivers[j]? with
        | none => rfl
        | some r => by_cases here : c.client = j <;> simp [here, arrived]
    · exact ⟨rfl, rfl⟩

theorem requests_step (s : Calls) (e : Event) : s.requests <+: (s.step picojson.package e).requests := by
  cases e with
  | net e => exact List.prefix_rfl
  | call i input unique =>
    unfold step
    dsimp only
    split
    · rw [requests, requests, List.map_append]
      exact List.prefix_append _ _
    · exact List.prefix_rfl
  | poll k expired => rw [(poll_frame s k expired).1]

def Asked (s : Calls) : Prop :=
  ∀ p ∈ s.requests, ∃ client input unique,
    (s.net.receivers.map Prod.fst)[p.1]? = some (.serviceClient client) ∧
      p.2 = .serviceRequest client.service input unique

theorem asked_step {s : Calls} (h : Asked s) (e : Event) : Asked (s.step picojson.package e) := by
  cases e with
  | net e =>
    intro p member
    obtain ⟨client, input, unique, found, made⟩ := h p member
    exact ⟨client, input, unique, fst_kept found, made⟩
  | call i input unique =>
    unfold step
    dsimp only
    split
    · rename_i client t found
      intro p member
      rw [requests, List.map_append, List.mem_append] at member
      rcases member with old | new
      · exact h p old
      · obtain rfl := List.mem_singleton.mp new
        exact ⟨client, input, unique, by rw [List.getElem?_map, found]; rfl, rfl⟩
    · exact h
  | poll k expired =>
    obtain ⟨requests, arrivals⟩ := poll_frame s k expired
    have endpoints := congrArg (List.map Prod.fst) arrivals
    simp only [Calls.arrivals, List.map_map] at endpoints
    intro p member
    rw [requests] at member
    obtain ⟨client, input, unique, found, made⟩ := h p member
    exact ⟨client, input, unique, by rw [← found]; exact congrArg (·[p.1]?) endpoints, made⟩

end Calls

/-! ### Both sides -/

/-- Nothing comes in. -/
def Net.Event.isOwn : Net.Event → Bool
  | .inbound _ => false
  | _ => true

def Calls.Event.isOwn : Calls.Event → Bool
  | .net e => e.isOwn
  | _ => true

structure Exchange where
  caller : Calls := {}
  provider : Net := {}

namespace Exchange

/-- The request of the call at position `k`, or the response `j` of the endpoint `i`, comes in at the
other side. -/
inductive Event where
  | caller (e : Calls.Event) (own : e.isOwn = true)
  | provider (e : Net.Event) (own : e.isOwn = true)
  | request (k : Nat)
  | response (i j : Nat)

def step (s : Exchange) : Event → Exchange
  | .caller e _ => { s with caller := s.caller.step picojson.package e }
  | .provider e _ => { s with provider := s.provider.step picojson.package e }
  | .request k =>
    match s.caller.calls[k]? with
    | none => s
    | some c =>
      { s with provider := s.provider.step picojson.package (.inbound (c.request.serialized picojson.package)) }
  | .response i j =>
    match s.provider.receivers[i]?.bind fun r => (responses r.2.log)[j]? with
    | none => s
    | some msg =>
      { s with caller := s.caller.step picojson.package (.net (.inbound (msg.serialized picojson.package))) }

abbrev run (s : Exchange) (events : List Event) : Exchange := Machine.run step s events

/-- `unique()` gives every request an identifier of its own. -/
def Fresh (s : Exchange) : Event → Prop
  | .caller e _ => Calls.Fresh picojson.package s.caller e
  | _ => True

instance (s : Exchange) : (e : Event) → Decidable (Fresh s e)
  | .caller e _ => inferInstanceAs (Decidable (Calls.Fresh picojson.package s.caller e))
  | .provider _ _ => .isTrue trivial
  | .request _ => .isTrue trivial
  | .response _ _ => .isTrue trivial

def Requested (requests : List (Nat × Serializer)) (u : Unserializer) : Prop :=
  ∃ p ∈ requests, u.json = p.2.json

def Responded (receivers : List (Receiver × State)) (u : Unserializer) : Prop :=
  ∃ r ∈ receivers, ∃ x msg, .responded x msg ∈ r.2.log ∧ u.json = msg.json

def Came (P : Unserializer → Prop) (net : Net) : Prop := Net.Each (fun _ t => ∀ u ∈ arrived t, P u) net

structure Sound (s : Exchange) : Prop where
  uncrossed : Calls.Uncrossed picojson.package s.caller
  asked : Calls.Asked s.caller
  wired : Net.Wired s.provider
  served : Net.Each Served s.provider
  requested : Came (Requested s.caller.requests) s.provider
  responded : Came (Responded s.provider.receivers) s.caller.net

theorem Came.imp {P Q : Unserializer → Prop} {net : Net} (h : Came P net) (weaker : ∀ u, P u → Q u) :
    Came Q net :=
  fun r member u came => weaker u (h r member u came)

theorem came_step {P : Unserializer → Prop} {net : Net} {e : Net.Event} (wired : Net.Wired net)
    (h : Came P net)
    (inbound : ∀ data u, e = .inbound data → Unserializer.new picojson.package data = .ok u → P u) :
    Came P (net.step picojson.package e) := by
  refine Net.each_step wired h (fun r u member => absurd member List.not_mem_nil) ?_ ?_
  · intro data u r t came built _ _ before v member
    rw [arrived_push, List.mem_append, List.mem_singleton] at member
    rcases member with old | rfl
    · exact before v old
    · exact inbound data v came built
  · intro r kind t e' _ other before u member
    rw [arrived_step other] at member
    exact before u member

theorem came_inbound {P : Unserializer → Prop} {net : Net} {msg : Serializer} (wired : Net.Wired net)
    (h : Came P net) (holds : P { json := msg.json }) :
    Came P (net.step picojson.package (.inbound (msg.serialized picojson.package))) := by
  refine came_step wired h fun data u same built => ?_
  obtain rfl := Net.Event.inbound.inj same
  rw [new_serialized] at built
  rw [← Except.ok.inj built]
  exact holds

theorem served_net {net : Net} (wired : Net.Wired net) (h : Net.Each Served net) (e : Net.Event) :
    Net.Each Served (net.step picojson.package e) := by
  refine Net.each_step wired h served_start ?_ ?_
  · intro data u r t _ _ _ _ served
    exact served_push served u
  · intro r kind t e' threaded _ served
    exact served_step served threaded e'

theorem Event.own_ne_inbound {e : Net.Event} (own : e.isOwn = true) (data : Bytes) : e ≠ .inbound data := by
  intro same
  rw [same] at own
  cases own

theorem sound_caller {s : Exchange} (h : Sound s) {e : Calls.Event} (own : e.isOwn = true)
    (fresh : Calls.Fresh picojson.package s.caller e) :
    Sound { s with caller := s.caller.step picojson.package e } where
  uncrossed := Calls.uncrossed_step h.uncrossed fresh
  asked := Calls.asked_step h.asked e
  wired := h.wired
  served := h.served
  requested := h.requested.imp fun u ⟨p, member, same⟩ => ⟨p, (Calls.requests_step s.caller e).subset member, same⟩
  responded := by
    cases e with
    | net e =>
      refine came_step h.uncrossed.consistent.wired h.responded fun data u same _ => ?_
      exact absurd same (Event.own_ne_inbound own data)
    | call i input unique =>
      unfold Calls.step
      dsimp only
      split
      · exact h.responded
      · exact h.responded
    | poll k expired =>
      obtain ⟨-, arrivals⟩ := Calls.poll_frame s.caller k expired
      intro r member u came
      have kept : (r.1, arrived r.2) ∈ (s.caller.step picojson.package (.poll k expired)).arrivals :=
        List.mem_map_of_mem member
      rw [arrivals] at kept
      obtain ⟨r', before, same⟩ := List.mem_map.mp kept
      refine h.responded r' before u ?_
      rw [(Prod.mk.inj same).2]
      exact came

theorem sound_provider {s : Exchange} (h : Sound s) {e : Net.Event}
    (inbound : ∀ data u, e = .inbound data → Unserializer.new picojson.package data = .ok u →
      Requested s.caller.requests u) :
    Sound { s with provider := s.provider.step picojson.package e } where
  uncrossed := h.uncrossed
  asked := h.asked
  wired := Net.wired_step h.wired picojson.package e
  served := served_net h.wired h.served e
  requested := came_step h.wired h.requested inbound
  responded := by
    refine h.responded.imp ?_
    rintro u ⟨r, member, x, msg, response, same⟩
    obtain ⟨r', after, -, kept⟩ := Net.logs_step picojson.package s.provider e r member
    exact ⟨r', after, x, msg, kept response, same⟩

theorem sound_step {s : Exchange} {e : Event} (h : Sound s) (fresh : Fresh s e) : Sound (s.step e) := by
  cases e with
  | caller e own => exact sound_caller h own fresh
  | provider e own =>
    refine sound_provider h fun data u same _ => ?_
    exact absurd same (Event.own_ne_inbound own data)
  | request k =>
    unfold step
    dsimp only
    split
    · exact h
    · rename_i c found
      have member : (c.client, c.request) ∈ s.caller.requests :=
        List.mem_map_of_mem (List.mem_of_getElem? found)
      refine sound_provider h fun data u same built => ?_
      obtain rfl := Net.Event.inbound.inj same
      rw [new_serialized] at built
      exact ⟨_, member, by rw [← Except.ok.inj built]⟩
  | response i j =>
    unfold step
    dsimp only
    split
    · exact h
    · rename_i msg found
      obtain ⟨r, here, logged⟩ := Option.bind_eq_some_iff.mp found
      obtain ⟨x, response⟩ := mem_responses.mp (List.mem_of_getElem? logged)
      have inbound : Came (Responded s.provider.receivers)
          (s.caller.net.step picojson.package (.inbound (msg.serialized picojson.package))) :=
        came_inbound h.uncrossed.consistent.wired h.responded
          ⟨r, List.mem_of_getElem? here, x, msg, response, rfl⟩
      have uncrossed := Calls.uncrossed_step h.uncrossed
        (e := .net (.inbound (msg.serialized picojson.package))) trivial
      exact ⟨uncrossed, Calls.asked_step h.asked _, h.wired, h.served, h.requested, inbound⟩

theorem sound_start : Sound {} where
  uncrossed := ⟨Calls.consistent_start, by simp [Calls.ids], by simp [Calls.ids], by simp [Calls.OwnResponses]⟩
  asked := by simp [Calls.Asked, Calls.requests]
  wired := Net.wired_start
  served := by simp [Net.Each]
  requested := by simp [Came, Net.Each]
  responded := by simp [Came, Net.Each]

/-! ### What a call returns -/

theorem sound_run {events : List Event} (fresh : Machine.Along step Fresh {} events) :
    Sound (run {} events) :=
  Machine.invariant_along (fun _ _ => sound_step) sound_start fresh

/-- A server of the service was asked with the input of this call, and responded with these values. -/
def AnsweredBy (provider : Net) (c : ServiceCall) (values : Object) : Prop :=
  ∃ r ∈ provider.receivers, ∃ server x payload,
    r.1 = .serviceServer server ∧
      c.request = .serviceRequest server.service payload (c.request.id picojson.package) ∧
      .called x payload ∈ r.2.log ∧
      .responded x (.serviceResponse server.service values true (c.request.id picojson.package)) ∈ r.2.log

theorem carries_of_json {u : Unserializer} (m : Message) (same : u.json = m.serializer.json) : Carries u m :=
  fun key => by rw [same]

/-- What a client takes for the answer of a service is a response with these values. -/
theorem answers_response {service name id id' : Bytes} {values values' : Object} {u : Unserializer}
    (answers : Calls.Answers name id values u)
    (same : u.json = (Serializer.serviceResponse service values' true id').json) :
    service = name ∧ id' = id ∧ values' = values := by
  have carries := carries_of_json (.serviceResponse service values' true id') same
  refine ⟨?_, ?_, ?_⟩
  · have read := (carries (ascii "service")).trans (read_service rfl)
    rw [answers.service] at read
    exact (Value.ofString_injective read).symm
  · rw [← answers.idOf]
    exact carries.idOf.symm
  · have payload := carries.payloadOf
    rw [payloadOf, answers.type] at payload
    dsimp only at payload
    rw [answers.values] at payload
    exact (Except.ok.inj payload).symm

theorem answeredBy_of_sound {s : Exchange} (h : Sound s) {c : ServiceCall} (member : c ∈ s.caller.calls)
    {values : Object} (returned : c.outcome = .returned values) : AnsweredBy s.provider c values := by
  obtain ⟨r, found, u, came, answers⟩ := h.uncrossed.own c member values returned
  obtain ⟨client, input, unique, here, made⟩ := h.asked _ (List.mem_map_of_mem member)
  have named : r.1.name = client.service := by
    rw [List.getElem?_map, found] at here
    rw [Option.some.inj here]
    rfl
  -- The response, back to the callback that made it.
  obtain ⟨rp, provider, x, msg, response, same⟩ := h.responded r (List.mem_of_getElem? found) u came
  obtain ⟨server, payload, values', endpoint, called, rfl⟩ := (h.served rp provider).responded x msg response
  obtain ⟨service, id, rfl⟩ := answers_response answers same
  -- The request, back to the call that sent it.
  obtain ⟨came', value⟩ := (h.served rp provider).called x payload called
  obtain ⟨p, asked, same'⟩ := h.requested rp provider x.msg came'
  obtain ⟨c', member', rfl⟩ := List.mem_map.mp asked
  have sender : c' = c := by
    obtain ⟨client', input', unique', -, made'⟩ := h.asked _ asked
    dsimp only at made' same'
    rw [made'] at same'
    refine List.inj_on_of_nodup_map h.uncrossed.distinct member' member ?_
    rw [← id, made', Calls.request_id]
    exact (carries_of_json (.serviceRequest client'.service input' unique') same').idOf.symm
  subst sender
  dsimp only at made same'
  rw [made] at same'
  have carries := carries_of_json (.serviceRequest client.service input unique) same'
  have given : input = payload := by
    rw [(payload_yields _).1, carries.payloadOf] at value
    exact Except.ok.inj value
  refine ⟨rp, provider, server, x, payload, endpoint, ?_, called, ?_⟩
  · rw [made, Calls.request_id, given, service, named]
  · rw [← id]
    exact response

/-- Whatever is lost, repeated and reordered between the two: a call that returns an object was handled by
a server of its service. Its callback was given the input of this call, and returned that object. -/
theorem call_returns_what_a_server_made {events : List Event} (fresh : Machine.Along step Fresh {} events) :
    ∀ c ∈ (run {} events).caller.calls, ∀ values, c.outcome = .returned values →
      AnsweredBy (run {} events).provider c values :=
  fun _ member _ returned => answeredBy_of_sound (sound_run fresh) member returned

/-- Two calls. The second request comes in first and twice, and the responses come in the other way round. -/
def reordered : List Event :=
  [.caller (.net (.attach (.serviceClient { service := ascii "/add", queue_size := 10 }))) rfl,
    .provider (.attach (.serviceServer { service := ascii "/add", type := [] })) rfl,
    .caller (.call 0 (to_json [(ascii "a", ascii "1")]) (ascii "1")) rfl,
    .caller (.call 0 (to_json [(ascii "a", ascii "2")]) (ascii "2")) rfl, .request 1, .request 1, .request 0] ++
    handles "2" ++ handles "2" ++ handles "1" ++
    [.response 0 2, .response 0 0, .caller (.poll 1 false) rfl, .caller (.poll 0 false) rfl]
where
  /-- The thread of the server takes a request, and its callback returns. -/
  handles (sum : String) : List Event :=
    List.replicate 6 (.provider (.listener 0 (some (to_json [(ascii "sum", ascii sum)]))) rfl)

theorem call_returns_what_a_server_made_reordered :
    (run {} reordered).caller.calls.map Calls.Returned = [true, true] ∧
      ∀ c ∈ (run {} reordered).caller.calls, ∀ values, c.outcome = .returned values →
        AnsweredBy (run {} reordered).provider c values :=
  ⟨by decide +kernel, call_returns_what_a_server_made (by decide +kernel)⟩

end Exchange

end Rosbridge.Listen
