import Rosbridge.Listen.Net
import Rosbridge.Wire

/-!
# From the wire to the callback

Whatever comes in, and however the queue overflows under the thread: an endpoint hears a subsequence
of what was addressed to its name since it was attached, in that order and with the payloads as they
were written. Messages may be lost on the way. None is handed over twice, early, or to another name.
-/

namespace Rosbridge

open Unserializer

namespace Listen

/-! ### One endpoint -/

def heard (log : List Entry) : List Object := log.filterMap fun
  | .called _ payload => some payload
  | _ => none

def payload? (u : Unserializer) : Option Object := (u.payload).1.toOption

/-- What the thread may still hand over. A message whose callback has begun is not among it, also when
the overflow loop has taken it off the queue. -/
def State.owed (s : State) : List Letter :=
  match s.pc with
  | .payload x => x :: s.queue.q.tail
  | .callback _ _ => s.queue.q.tail
  | .pop _ => s.queue.q.tail
  | .terminated => []
  | _ => s.queue.q

structure Relayed (s : State) : Prop where
  subsequence : ((calls s.log ++ s.owed).map Letter.msg).Sublist (arrived s)
  honest : ∀ x payload, .called x payload ∈ s.log → (x.msg.payload).1 = .ok payload

theorem heard_eq {log : List Entry}
    (honest : ∀ x payload, .called x payload ∈ log → (x.msg.payload).1 = .ok payload) :
    heard log = ((calls log).map Letter.msg).filterMap payload? := by
  induction log with
  | nil => rfl
  | cons entry rest ih =>
    have later := ih fun x payload member => honest x payload (List.mem_cons_of_mem _ member)
    cases entry with
    | called x payload =>
      have value : payload? x.msg = some payload := by
        rw [payload?, honest x payload List.mem_cons_self]
        rfl
      show payload :: heard rest = ((x :: calls rest).map Letter.msg).filterMap payload?
      rw [List.map_cons, List.filterMap_cons_some value, later]
    | _ => exact later

theorem Relayed.heard {s : State} (h : Relayed s) :
    (Listen.heard s.log).Sublist ((arrived s).filterMap payload?) := by
  rw [heard_eq h.honest]
  refine List.Sublist.filterMap payload? (List.Sublist.trans ?_ h.subsequence)
  rw [List.map_append]
  exact List.sublist_append_left _ _

theorem relayed_start (queue_size : Int32) : Relayed (start queue_size) where
  subsequence := List.Sublist.refl _
  honest := by simp [start]

theorem tail_append_sublist (q : List Letter) (x : Letter) : (q ++ [x]).tail.Sublist (q.tail ++ [x]) := by
  cases q with
  | nil => exact List.nil_sublist _
  | cons y rest => exact List.Sublist.refl _

theorem owed_push (s : State) (msg : Unserializer) :
    (push s msg).owed.Sublist (s.owed ++ [⟨s.tickets, msg⟩]) := by
  have kept : (push s msg).queue.q.Sublist (s.queue.q ++ [⟨s.tickets, msg⟩]) := by
    rw [← lost_append_push]
    exact List.sublist_append_right _ _
  have behind := kept.tail.trans (tail_append_sublist _ _)
  unfold State.owed
  rw [show (push s msg).pc = s.pc from rfl]
  cases s.pc with
  | payload x => exact behind.cons_cons x
  | callback x payload => exact behind
  | pop x => exact behind
  | terminated => exact List.nil_sublist _
  | _ => exact kept

theorem relayed_push {s : State} (h : Relayed s) (msg : Unserializer) : Relayed (push s msg) where
  subsequence := by
    rw [calls_push, arrived_push]
    have grown : ((calls s.log ++ (push s msg).owed).map Letter.msg).Sublist
        ((calls s.log ++ s.owed).map Letter.msg ++ [msg]) := by
      have appended := (owed_push s msg).append_left (calls s.log)
      rw [← List.append_assoc] at appended
      simpa only [List.map_append, List.map_cons, List.map_nil] using appended.map Letter.msg
    exact grown.trans (h.subsequence.append_right [msg])
  honest x payload member := h.honest x payload ((mem_push_log msg (by simp)).mp member)

theorem owed_idle {s : State} (idle : s.pc.taken = none) (alive : s.pc ≠ .terminated) : s.owed = s.queue.q := by
  unfold State.owed
  split
  · rename_i pc
    rw [pc] at idle
    cases idle
  · rename_i pc
    rw [pc] at idle
    cases idle
  · rename_i pc
    rw [pc] at idle
    cases idle
  · rename_i pc
    exact absurd pc alive
  · rfl

theorem owed_idle_le {s : State} (idle : s.pc.taken = none) : s.owed.Sublist s.queue.q := by
  by_cases dead : s.pc = .terminated
  · rw [State.owed, dead]
    exact List.nil_sublist _
  · rw [owed_idle idle dead]

theorem relayed_listener {kind : Kind} {s : State} (h : Relayed s) (alive : s.pc ≠ .terminated)
    (returned : Option Object) : Relayed (listener kind s returned) := by
  have same := arrived_listener kind s returned
  have moves := listener_moves kind s returned
  generalize listener kind s returned = t at moves same
  -- A step that begins no callback takes nothing to hand over.
  have less {t : State} (same : arrived t = arrived s) (called : calls t.log = calls s.log)
      (honest : ∀ x payload, .called x payload ∈ t.log → .called x payload ∈ s.log)
      (owed : t.owed.Sublist s.owed) : Relayed t := by
    refine ⟨?_, fun x payload member => h.honest x payload (honest x payload member)⟩
    rw [same, called]
    exact ((owed.append_left (calls s.log)).map Letter.msg).trans h.subsequence
  cases moves with
  | stays => exact h
  | rests before after =>
    refine less same rfl (fun _ _ => id) ?_
    rw [owed_idle before alive]
    exact owed_idle_le after
  | reads x pc next =>
    refine less same rfl (fun _ _ => id) ?_
    obtain ⟨rest, contents⟩ := List.head?_eq_some_iff.mp next
    simp [State.owed, pc, contents]
  | calls x payload pc value =>
    constructor
    · have owed : s.owed = x :: s.queue.q.tail := by rw [State.owed, pc]
      have before := h.subsequence
      rw [owed, List.append_cons] at before
      rw [same, calls_append]
      exact before
    · intro y payload' member
      rcases List.mem_append.mp member with old | new
      · exact h.honest y payload' old
      · obtain ⟨rfl, rfl⟩ := Entry.called.inj (List.mem_singleton.mp new)
        exact value
  | drops x service e server pc thrown =>
    refine less same rfl (fun _ _ => id) ?_
    simp [State.owed, pc]
  | returns x payload pc =>
    refine less same rfl (fun _ _ => id) ?_
    simp [State.owed, pc]
  | answers x payload msg pc =>
    refine less same ?_ (by simp) ?_
    · simp [Listen.calls, Entry.called?]
    · simp [State.owed, pc]
  | terminates x held => exact less same rfl (fun _ _ => id) (List.nil_sublist _)
  | pops x removed queue pc next pop =>
    obtain ⟨y, rest, contents, rfl⟩ := ListenerQueue.pop_cases pop
    refine less same ?_ (by simp) ?_
    · simp [Listen.calls, Entry.called?]
    · simp [State.owed, pc, contents]
  | stuck x pc empty =>
    refine less same rfl (fun _ _ => id) ?_
    have none : s.queue.q = [] := List.head?_eq_none_iff.mp empty
    simp [State.owed, none]

theorem relayed_step {kind : Kind} {s : State} (h : Relayed s) (e : Event) : Relayed (step kind s e) := by
  unfold step
  split
  · exact h
  · exact relayed_push h _
  · exact ⟨h.subsequence, h.honest⟩
  · rename_i alive
    exact relayed_listener h alive _

/-! ### All endpoints of a client -/

namespace Net

/-- The message that an event brings for the endpoints with that name. -/
def Event.letter? (picojson : Picojson) (name : Bytes) : Event → Option Unserializer
  | .inbound data => (Unserializer.new picojson data).toOption.filter fun u => route u = .ok (some name)
  | _ => none

def mail (picojson : Picojson) (name : Bytes) (events : List Event) : List Unserializer :=
  events.filterMap (Event.letter? picojson name)

theorem letter?_eq_some {picojson : Picojson} {name data : Bytes} {u : Unserializer} :
    Event.letter? picojson name (.inbound data) = some u ↔
      Unserializer.new picojson data = .ok u ∧ route u = .ok (some name) := by
  rw [Event.letter?, Option.filter_eq_some_iff, decide_eq_true_eq]
  refine and_congr_left fun _ => ?_
  cases Unserializer.new picojson data <;> simp [Except.toOption]

theorem getElem?_deliver {targets : List Nat} (once : targets.Nodup) (u : Unserializer)
    (receivers : List (Receiver × State)) (i : Nat) :
    ((targets.map fun q => (q, u)).foldl deliver receivers)[i]? =
      receivers[i]?.map fun r => if i ∈ targets then (r.1, push r.2 u) else r := by
  induction targets generalizing receivers with
  | nil => simp
  | cons q rest ih =>
    obtain ⟨notAgain, once'⟩ := List.nodup_cons.mp once
    rw [List.map_cons, List.foldl_cons, ih once', deliver, List.getElem?_modify]
    cases receivers[i]? with
    | none => rfl
    | some r =>
      by_cases here : q = i
      · subst here
        simp [notAgain]
      · simp [here, Ne.symm here]

/-- A text is pushed to the endpoints that it is addressed to, and to no others. -/
theorem inbound_endpoint {picojson : Picojson} {net : Net} (wired : Wired net) (data : Bytes) {i : Nat}
    {r : Receiver × State} (found : (net.step picojson (.inbound data)).receivers[i]? = some r) :
    ∃ s, net.receivers[i]? = some (r.1, s) ∧
      r.2 = (Event.letter? picojson r.1.name (.inbound data)).elim s (push s) := by
  have silent {r : Receiver × State} (none : ∀ u, Event.letter? picojson r.1.name (.inbound data) ≠ some u) :
      r.2 = (Event.letter? picojson r.1.name (.inbound data)).elim r.2 (push r.2) := by
    rw [Option.eq_none_iff_forall_ne_some.mpr none]
    rfl
  unfold Net.step at found
  cases returned : listen picojson net.listeners data with
  | error e =>
    simp only [returned] at found
    refine ⟨r.2, found, silent fun u letter => ?_⟩
    obtain ⟨built, routed⟩ := letter?_eq_some.mp letter
    rw [listen_ok.mpr ⟨u, _, built, routed, rfl⟩] at returned
    cases returned
  | ok pushes =>
    simp only [returned] at found
    obtain ⟨u, target, built, routed, rfl⟩ := listen_ok.mp returned
    cases target with
    | none =>
      refine ⟨r.2, found, silent fun v letter => ?_⟩
      obtain ⟨built', routed'⟩ := letter?_eq_some.mp letter
      rw [built] at built'
      cases built'
      rw [routed] at routed'
      cases routed'
    | some name =>
      rw [deliveries, getElem?_deliver (wired.once name)] at found
      obtain ⟨⟨receiver, s⟩, before, rfl⟩ := Option.map_eq_some_iff.mp found
      by_cases addressed : i ∈ net.listeners name
      · obtain ⟨r', found', named⟩ := wired.named name i addressed
        rw [before] at found'
        obtain rfl := Option.some.inj found'
        have letter : Event.letter? picojson receiver.name (.inbound data) = some u :=
          letter?_eq_some.mpr ⟨built, by rw [routed, ← named]⟩
        refine ⟨s, ?_, ?_⟩
        · simp [before, addressed]
        · simp [addressed, letter]
      · rw [if_neg addressed]
        refine ⟨s, before, silent fun v letter => ?_⟩
        obtain ⟨built', routed'⟩ := letter?_eq_some.mp letter
        rw [built] at built'
        cases built'
        rw [routed] at routed'
        obtain rfl := Option.some.inj (Except.ok.inj routed')
        exact addressed (wired.attached i _ before)

/-- What has come in for an endpoint since it was attached is what `listen` pushed to its queue. -/
structure Relays (picojson : Picojson) (events : List Event) (r : Receiver × State) : Prop where
  since : ∃ before after, events = before ++ .attach r.1 :: after ∧ arrived r.2 = mail picojson r.1.name after
  relayed : Relayed r.2

theorem Relays.silent {picojson : Picojson} {events : List Event} {e : Event} {r : Receiver × State} {s : State}
    (h : Relays picojson events (r.1, s)) (silent : e.letter? picojson r.1.name = none)
    (same : arrived r.2 = arrived s) (relayed : Relayed r.2) : Relays picojson (events ++ [e]) r := by
  obtain ⟨before, after, split, brought⟩ := h.since
  refine ⟨⟨before, after ++ [e], ?_, ?_⟩, relayed⟩
  · rw [split, List.append_assoc, List.cons_append]
  · rw [same, brought, mail, mail, List.filterMap_append, List.filterMap_cons_none silent, List.filterMap_nil,
      List.append_nil]

theorem relays_run (picojson : Picojson) (events : List Event) :
    Wired (run picojson {} events) ∧
      ∀ (i : Nat) (r : Receiver × State), (run picojson {} events).receivers[i]? = some r →
        Relays picojson events r := by
  induction events using List.reverseRecOn with
  | nil => exact ⟨wired_start, by simp [run, Machine.run]⟩
  | append_singleton events e ih =>
    obtain ⟨wired, relays⟩ := ih
    have stepped : run picojson {} (events ++ [e]) = (run picojson {} events).step picojson e :=
      Machine.run_append _ _ _
    rw [stepped]
    refine ⟨wired_step wired picojson e, fun i r found => ?_⟩
    -- A thread or a destructor takes a step.
    have acts {j : Nat} {e' : Listen.Event} (other : ∀ msg, e' ≠ .push msg)
        (silent : e.letter? picojson r.1.name = none)
        (found : ((run picojson {} events).receivers.modify j (act e'))[i]? = some r) :
        Relays picojson (events ++ [e]) r := by
      rw [List.getElem?_modify] at found
      obtain ⟨⟨receiver, s⟩, before, rfl⟩ := Option.map_eq_some_iff.mp found
      have h := relays i _ before
      by_cases here : j = i
      · rw [if_pos here] at silent ⊢
        rw [act_fst] at silent
        refine Relays.silent (s := s) (by rw [act_fst]; exact h) (by rw [act_fst]; exact silent) ?_ ?_
        · unfold act
          split
          · rfl
          · exact arrived_step other
        · unfold act
          split
          · exact h.relayed
          · exact relayed_step h.relayed _
      · rw [if_neg here] at silent ⊢
        exact h.silent silent rfl h.relayed
    cases e with
    | attach receiver =>
      simp only [step] at found
      rw [List.getElem?_append] at found
      split at found
      · have h := relays i r found
        exact h.silent rfl rfl h.relayed
      · rw [List.getElem?_singleton] at found
        split at found
        · obtain rfl := Option.some.inj found
          exact ⟨⟨events, [], rfl, rfl⟩, relayed_start _⟩
        · cases found
    | inbound data =>
      obtain ⟨s, before, pushed⟩ := inbound_endpoint wired data found
      have h := relays i _ before
      cases letter : Event.letter? picojson r.1.name (.inbound data) with
      | none =>
        rw [letter, Option.elim_none] at pushed
        exact h.silent letter (by rw [pushed]) (by rw [pushed]; exact h.relayed)
      | some u =>
        rw [letter, Option.elim_some] at pushed
        obtain ⟨first, after, split, brought⟩ := h.since
        refine ⟨⟨first, after ++ [.inbound data], ?_, ?_⟩, ?_⟩
        · rw [split, List.append_assoc, List.cons_append]
        · rw [pushed, arrived_push, brought, mail, mail, List.filterMap_append, List.filterMap_cons_some letter,
            List.filterMap_nil]
        · rw [pushed]
          exact relayed_push h.relayed u
    | listener j returned => exact acts (by simp) rfl found
    | destroy j => exact acts (by simp) rfl found

end Net

end Listen

/-! ### The messages of the library -/

open Listen Net

/-- The name that a message is delivered under, if its operation is delivered at all. -/
def Message.target? : Message → Option Bytes
  | topicMessage topic _ _ => some topic
  | serviceRequest service _ _ => some service
  | serviceResponse service _ _ _ => some service
  | _ => none

theorem route_unserializer (m : Message) : route m.unserializer = .ok m.target? := by
  unfold route
  rw [m.carries_unserializer.typeOf]
  cases m with
  | topicMessage topic msg id =>
    exact congrArg (·.getString.map some) (read_topic (m := .topicMessage topic msg id) rfl)
  | serviceRequest service args id =>
    exact congrArg (·.getString.map some) (read_service (m := .serviceRequest service args id) rfl)
  | serviceResponse service values result id =>
    exact congrArg (·.getString.map some) (read_service (m := .serviceResponse service values result id) rfl)
  | _ => rfl

/-- A text brings its payload for the name that it is routed to, and nothing for another. -/
theorem letter?_routed {picojson : Picojson} {data : Bytes} {u : Unserializer} {target : Option Bytes} {object : Object}
    (built : Unserializer.new picojson data = .ok u) (routed : route u = .ok target)
    (value : payload? u = some object) (name : Bytes) :
    (Event.letter? picojson name (.inbound data)).bind payload? = if target = some name then some object else none := by
  cases letter : Event.letter? picojson name (.inbound data) with
  | none =>
    have other : target ≠ some name := by
      rintro rfl
      have brought := letter?_eq_some.mpr ⟨built, routed⟩
      rw [letter] at brought
      cases brought
    rw [if_neg other, Option.bind_none]
  | some v =>
    obtain ⟨built', routed'⟩ := letter?_eq_some.mp letter
    rw [built] at built'
    obtain rfl := Except.ok.inj built'
    rw [routed] at routed'
    rw [if_pos (Except.ok.inj routed'), Option.bind_some, value]

/-- The payload of a message gets to the endpoints with its name as it was written. -/
theorem letter?_text (m : Message) (name : Bytes) :
    (Event.letter? picojson.package name (.inbound m.text)).bind payload? =
      if m.target? = some name then some m.payload else none := by
  have value : payload? m.unserializer = some m.payload := by
    rw [payload?, (payload_yields _).1, m.carries_unserializer.payloadOf]
    rfl
  exact letter?_routed m.new_text (route_unserializer m) value name

/-- The callback of an endpoint hears some of what came in for its name since it was attached. -/
theorem heard_since {events : List Net.Event} {r : Receiver × State}
    (member : r ∈ (Net.run picojson.package {} events).receivers) : ∃ before after,
      events = before ++ .attach r.1 :: after ∧
        (heard r.2.log).Sublist ((mail picojson.package r.1.name after).filterMap payload?) := by
  obtain ⟨i, found⟩ := List.mem_iff_getElem?.mp member
  obtain ⟨⟨before, after, split, brought⟩, relayed⟩ := (relays_run picojson.package events).2 i r found
  refine ⟨before, after, split, ?_⟩
  rw [← brought]
  exact relayed.heard

/-- In every run, the callback of an endpoint hears a subsequence of the payloads that came in for its
name since it was attached. A message of the library comes in with the payload that it was made of. -/
theorem callbacks_hear_in_order (events : List Net.Event) :
    (∀ r ∈ (Net.run picojson.package {} events).receivers, ∃ before after,
      events = before ++ .attach r.1 :: after ∧
        (heard r.2.log).Sublist ((mail picojson.package r.1.name after).filterMap payload?)) ∧
    ∀ (m : Message) (name : Bytes), (Event.letter? picojson.package name (.inbound m.text)).bind payload? =
      if m.target? = some name then some m.payload else none :=
  ⟨fun _ member => heard_since member, letter?_text⟩

end Rosbridge
