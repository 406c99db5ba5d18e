import Rosbridge.Listen.Delivery
import Rosbridge.Listen.Exchange
import Rosbridge.Talk.Anytime

/-!
# A publication from end to end

One client publishes, another has the endpoints that hear it. The server between them keeps the head
messages to itself and passes on the others, those of each talker queue in the order in which it got
them. It may lose some. What a callback hears is a merge of subsequences of what was pushed to the queues.
-/

namespace Rosbridge

open Listen Talk

/-! ### What a queue has transmitted -/

namespace Talk

variable {M : Type}

/-- What was transmitted from the queue `i`, but for its head message. -/
def sentBy (i : Nat) (s : Talk.State M) : List (Slip M) := s.talkers[i]?.elim [] fun t => transmitted t.log

theorem log_lane (l : Lane M) (e : LaneEvent M) : l.talker.log <+: (l.step e).talker.log := by
  rcases e.push_or_quiet with ⟨origin, msg, rfl⟩ | quiet
  · exact List.prefix_append _ _
  · obtain ⟨queue, new, -, -, -, same⟩ := Lane.talker_cases quiet
    rw [same]
    exact List.prefix_append _ _

theorem sentBy_lane {i : Nat} {s : Talk.State M} {l : Lane M} (here : lane i s = some l) :
    sentBy i s = transmitted l.talker.log := by
  rw [sentBy, (lane_eq_some here).1]
  rfl

/-- The server does not give back what it got. -/
theorem sentBy_step (i : Nat) (s : Talk.State M) (e : Talk.Event M) : sentBy i s <+: sentBy i (Talk.step s e) := by
  cases here : lane i s with
  | none =>
    have missing : s.talkers[i]? = none := Option.map_eq_none_iff.mp here
    rw [sentBy, missing]
    exact List.nil_prefix
  | some l =>
    have after : ∃ label, lane i (Talk.step s e) = some (l.step label) := by
      cases e with
      | attach queue_size head_msg =>
        refine ⟨.other, ?_⟩
        obtain ⟨found, hold, link, pending⟩ := lane_eq_some here
        simp only [Talk.step, Talk.attach]
        split
        · have inside := (List.getElem?_eq_some_iff.mp found).1
          rw [lane, List.getElem?_append_left inside]
          exact here
        · exact here
      | _ => exact ⟨_, by rw [lane_map (by simp), here]; rfl⟩
    obtain ⟨label, after⟩ := after
    rw [sentBy_lane here, sentBy_lane after]
    exact (log_lane l label).filterMap _

end Talk

/-! ### Both sides -/

/-- What the queue `i` has a share of. -/
def share {α : Type} (i : Nat) (xs : List (Nat × α)) : List α := (xs.filter fun x => x.1 = i).map Prod.snd

theorem share_append {α : Type} (i : Nat) (xs ys : List (Nat × α)) :
    share i (xs ++ ys) = share i xs ++ share i ys := by
  rw [share, List.filter_append, List.map_append]
  rfl

theorem share_sublist {α : Type} (i : Nat) {xs ys : List (Nat × α)} (less : xs.Sublist ys) :
    (share i xs).Sublist (share i ys) :=
  (less.filter _).map _

/-- What an endpoint of that name is given of a message. -/
def hears (name : Bytes) (msg : Serializer) : Option Object :=
  (Net.Event.letter? picojson.package name (.inbound (msg.serialized picojson.package))).bind payload?

/-- Of the messages transmitted from queue `i`, the server passes on next one from position `passed i` on.
No step reads what was brought so far, or the history of the receiving client. -/
structure Publication where
  sender : Talk.State Serializer := Talk.start .offline
  receiver : Net := {}
  passed : Nat → Nat := fun _ => 0
  brought : List (Nat × Slip Serializer) := []
  history : List Net.Event := []

namespace Publication

inductive Event where
  | sender (e : Talk.Event Serializer)
  | receiver (e : Net.Event) (own : e.isOwn = true)
  | pass (i j : Nat)

def receive (s : Publication) (e : Net.Event) : Publication :=
  { s with receiver := s.receiver.step picojson.package e, history := s.history ++ [e] }

def pass (s : Publication) (i j : Nat) (x : Slip Serializer) : Publication :=
  { s.receive (.inbound (x.msg.serialized picojson.package)) with
    passed := Function.update s.passed i (j + 1)
    brought := s.brought ++ [(i, x)] }

def step (s : Publication) : Event → Publication
  | .sender e => { s with sender := Talk.step s.sender e }
  | .receiver e _ => s.receive e
  | .pass i j =>
    if s.passed i ≤ j then
      match (sentBy i s.sender)[j]? with
      | some x => s.pass i j x
      | none => s
    else s

abbrev run (s : Publication) (events : List Event) : Publication := Machine.run step s events

/-- Of a message that was transmitted, `pop` takes off that message. -/
def TakesOff (s : Publication) : Event → Prop
  | .sender e => Talk.TakesOff s.sender e
  | _ => True

instance (s : Publication) : (e : Event) → Decidable (TakesOff s e)
  | .sender e => inferInstanceAs (Decidable (Talk.TakesOff s.sender e))
  | .receiver _ _ => .isTrue trivial
  | .pass _ _ => .isTrue trivial

structure Sound (s : Publication) : Prop where
  ordered : ∀ i l, lane i s.sender = some l → Ordered l
  carried : ∀ i, (share i s.brought).Sublist ((sentBy i s.sender).take (s.passed i))
  received : s.receiver = Net.run picojson.package {} s.history
  mail : ∀ name, (Net.mail picojson.package name s.history).filterMap payload? =
    s.brought.filterMap fun p => hears name p.2.msg

theorem sound_start : Sound {} where
  ordered i l here := by simp [lane, Talk.start] at here
  carried i := List.nil_sublist _
  received := rfl
  mail name := rfl

theorem received_receive {s : Publication} (h : Sound s) (e : Net.Event) :
    (s.receive e).receiver = Net.run picojson.package {} (s.receive e).history := by
  simp only [receive]
  rw [Net.run, Machine.run_append, h.received]
  rfl

theorem mail_concat (name : Bytes) (history : List Net.Event) (e : Net.Event) :
    (Net.mail picojson.package name (history ++ [e])).filterMap payload? =
      (Net.mail picojson.package name history).filterMap payload? ++
        ((e.letter? picojson.package name).bind payload?).toList := by
  rw [Net.mail, Net.mail, List.filterMap_append, List.filterMap_append]
  congr 1
  cases letter : e.letter? picojson.package name with
  | none => rw [List.filterMap_cons_none letter]; rfl
  | some u =>
    rw [List.filterMap_cons_some letter]
    cases value : payload? u with
    | none => simp [value]
    | some payload => simp [value]

theorem sound_sender {s : Publication} (h : Sound s) {e : Talk.Event Serializer}
    (off : Talk.TakesOff s.sender e) : Sound (s.step (.sender e)) where
  ordered i l' after := by
    rcases lane_step after with ⟨l, here, rfl⟩ | ⟨queue_size, head_msg, -, rfl⟩
    · exact ordered_step (h.ordered i l here) (lane_guard here e) (ordered_allowed here off)
    · exact ordered_fresh queue_size head_msg _
  carried i := by
    obtain ⟨more, grown⟩ := sentBy_step i s.sender e
    simp only [step]
    rw [← grown, List.take_append]
    exact (h.carried i).trans (List.sublist_append_left _ _)
  received := h.received
  mail := h.mail

theorem sound_receiver {s : Publication} (h : Sound s) {e : Net.Event} (own : e.isOwn = true) :
    Sound (s.receive e) where
  ordered := h.ordered
  carried := h.carried
  received := received_receive h e
  mail name := by
    have silent : e.letter? picojson.package name = none := by
      cases e with
      | inbound data => cases own
      | _ => rfl
    simp only [receive]
    rw [mail_concat, silent, h.mail name]
    exact List.append_nil _

theorem sound_pass {s : Publication} (h : Sound s) {i j : Nat} {x : Slip Serializer}
    (later : s.passed i ≤ j) (sent : (sentBy i s.sender)[j]? = some x) : Sound (s.pass i j x) where
  ordered := h.ordered
  carried k := by
    simp only [pass, receive]
    rw [share_append]
    by_cases here : i = k
    · subst here
      rw [Function.update_self, List.take_add_one, sent]
      have before := (h.carried i).trans (List.take_sublist_take_left later)
      simpa [share] using before.append_right [x]
    · rw [Function.update_of_ne (Ne.symm here)]
      simpa [share, here] using h.carried k
  received := received_receive h (.inbound (x.msg.serialized picojson.package))
  mail name := by
    simp only [pass, receive]
    rw [mail_concat, h.mail name, List.filterMap_append]
    rfl

theorem sound_step {s : Publication} {e : Event} (h : Sound s) (off : TakesOff s e) : Sound (s.step e) := by
  cases e with
  | sender e => exact sound_sender h off
  | receiver e own => exact sound_receiver h own
  | pass i j =>
    unfold step
    dsimp only
    split
    · rename_i later
      split
      · rename_i x sent
        exact sound_pass h later sent
      · exact h
    · exact h

theorem sound_run {events : List Event} (off : Machine.Along step TakesOff {} events) :
    Sound (run {} events) :=
  Machine.invariant_along (fun _ _ => sound_step) sound_start off

/-- What was brought came from a queue of the sender. -/
theorem Sound.inside {s : Publication} (h : Sound s) {p : Nat × Slip Serializer} (member : p ∈ s.brought) :
    p.1 < s.sender.talkers.length := by
  have shared : p.2 ∈ share p.1 s.brought :=
    List.mem_map_of_mem (List.mem_filter.mpr ⟨member, decide_eq_true rfl⟩)
  have sent : p.2 ∈ sentBy p.1 s.sender := List.mem_of_mem_take ((h.carried p.1).subset shared)
  by_contra outside
  rw [sentBy, List.getElem?_eq_none (not_lt.mp outside)] at sent
  cases sent

/-! ### What a callback hears -/

theorem map_filter_isSome {α β : Type} (f : α → Option β) (xs : List α) :
    (xs.filter fun x => (f x).isSome).map f = (xs.filterMap f).map some := by
  induction xs with
  | nil => rfl
  | cons x xs ih =>
    cases value : f x with
    | none => simp [value, ih]
    | some y => simp [value, ih]

/-- The callback of an endpoint hears some of what came in for its name. -/
theorem heard_of_mail {events : List Net.Event} {r : Receiver × Listen.State}
    (member : r ∈ (Net.run picojson.package {} events).receivers) :
    (Listen.heard r.2.log).Sublist ((Net.mail picojson.package r.1.name events).filterMap payload?) := by
  obtain ⟨before, after, split, since⟩ := heard_since member
  have later : (Net.mail picojson.package r.1.name after).Sublist (Net.mail picojson.package r.1.name events) := by
    rw [split]
    exact ((List.sublist_cons_self _ after).trans (List.sublist_append_right before _)).filterMap _
  exact since.trans (later.filterMap payload?)

theorem hears_message (m : Message) (name : Bytes) :
    hears name m.serializer = if m.target? = some name then some m.payload else none :=
  letter?_text m name

/-- As long as each `pop` takes off the message that was transmitted: what a callback hears are payloads of
messages for its name that were pushed to the queues of the other client, those of each queue in the order in
which they were pushed, and none twice. -/
theorem publications_are_heard_in_order {events : List Event} (off : Machine.Along step TakesOff {} events) :
    (∀ r ∈ (run {} events).receiver.receivers, ∃ sources : List (Nat × Slip Serializer),
      (∀ p ∈ sources, p.1 < (run {} events).sender.talkers.length) ∧
      (sources.map fun p => hears r.1.name p.2.msg) = (Listen.heard r.2.log).map some ∧
      ∀ i t, (run {} events).sender.talkers[i]? = some t →
        (share i sources).Sublist (pushedTo t.log) ∧ (share i sources).Nodup) ∧
    ∀ (m : Message) (name : Bytes),
      hears name m.serializer = if m.target? = some name then some m.payload else none := by
  refine ⟨fun r member => ?_, hears_message⟩
  have sound := sound_run off
  generalize run {} events = s at member sound
  rw [sound.received] at member
  have given := heard_of_mail member
  rw [sound.mail, List.sublist_filterMap_iff] at given
  obtain ⟨chosen, less, same⟩ := given
  have fewer : (chosen.filter fun p => (hears r.1.name p.2.msg).isSome).Sublist s.brought :=
    List.filter_sublist.trans less
  refine ⟨chosen.filter fun p => (hears r.1.name p.2.msg).isSome,
    fun p picked => sound.inside (fewer.subset picked), ?_, fun i t found => ?_⟩
  · rw [same]
    exact map_filter_isSome (fun p : Nat × Slip Serializer => hears r.1.name p.2.msg) chosen
  · have inOrder := (sound.ordered i _ (lane_some found)).transmitsInOrder
    have carried := ((share_sublist i fewer).trans (sound.carried i)).trans (List.take_sublist _ _)
    rw [sentBy_lane (lane_some found)] at carried
    exact ⟨carried.trans inOrder.1, carried.nodup inOrder.2⟩

/-- Two publishers of one topic, and four messages. -/
def chatters : List (Talk.Event Serializer) :=
  [.attach 10 advertise, .attach 10 advertise] ++ connects 2 ++ talks 20 ++
    [.push 0 (chatter "one" "2"), .push 0 (chatter "two" "3"), .push 1 (chatter "other" "4"),
      .push 0 (chatter "three" "5")] ++ talks 60

/-- The first message is lost, and the second publisher is heard between two messages of the first. -/
def published : List Event :=
  chatters.map .sender ++
    [.receiver (.attach (.subscriber { topic := ascii "/chatter", type := [] })) rfl, .pass 0 1, .pass 1 0,
      .pass 0 2] ++
    List.replicate 18 (.receiver (.listener 0 (some .empty)) rfl)

theorem publications_are_heard_in_order_published :
    (run {} published).receiver.receivers.map (fun r => Listen.heard r.2.log) =
        [["two", "other", "three"].map fun data => to_json [(ascii "data", ascii data)]] ∧
      ∀ r ∈ (run {} published).receiver.receivers, ∃ sources : List (Nat × Slip Serializer),
        (∀ p ∈ sources, p.1 < (run {} published).sender.talkers.length) ∧
        (sources.map fun p => hears r.1.name p.2.msg) = (Listen.heard r.2.log).map some ∧
        ∀ i t, (run {} published).sender.talkers[i]? = some t →
          (share i sources).Sublist (pushedTo t.log) ∧ (share i sources).Nodup :=
  ⟨by decide +kernel, (publications_are_heard_in_order (by decide +kernel)).1⟩

end Publication

end Rosbridge
