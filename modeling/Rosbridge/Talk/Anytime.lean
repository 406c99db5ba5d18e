import Mathlib.Data.List.Nodup
import Rosbridge.Talk.Handover

/-!
# Resets at any time

The open handler is not the only schedule of `TalkerQueue::reset` that a law of the queues can
allow for. Here any queue is reset between any two steps of the system, besides the resets of the
open handler.

A message is transmitted twice when a reset falls between `next` and `pop` of it: `pop` then takes
off the head message in its place.
-/

namespace Rosbridge.Talk

variable {M : Type}

inductive Anytime (M : Type) where
  | event (e : Event M)
  | reset (i : Nat)

namespace Anytime

def step (s : State M) : Anytime M → State M
  | .event e => Talk.step s e
  | .reset i => { s with talkers := s.talkers.modify i Talker.reset }

abbrev run (s : State M) (events : List (Anytime M)) : State M := Machine.run step s events

/-- A condition on the steps of the system; resets are free. -/
def On (ok : State M → Event M → Prop) (s : State M) : Anytime M → Prop
  | .event e => ok s e
  | .reset _ => True

instance {ok : State M → Event M → Prop} [∀ s e, Decidable (ok s e)] (s : State M) :
    (e : Anytime M) → Decidable (On ok s e)
  | .event e => inferInstanceAs (Decidable (ok s e))
  | .reset _ => .isTrue trivial

theorem lane_reset (i j : Nat) (s : State M) :
    lane i (step s (.reset j)) =
      (lane i s).map fun l => if j = i then { l with talker := l.talker.reset } else l := by
  cases found : s.talkers[i]? with
  | none =>
    have short : s.talkers.length ≤ i := List.getElem?_eq_none_iff.mp found
    simp [step, lane, short]
  | some t =>
    by_cases same : j = i
    · subst same
      simp [step, lane, found, State.pending]
    · simp [step, lane, found, same, State.pending, List.getElem?_modify_ne _ _ same]

/-- `lane_invariant` for an invariant that a reset of the queue keeps as well. -/
theorem lane_invariant {Inv : Lane M → Prop} {ok : State M → Event M → Prop}
    (new : ∀ queue_size head_msg link, Inv (.fresh queue_size head_msg link))
    (keep : ∀ i s l e, lane i s = some l → Inv l → l.Guard (label i s e) → ok s e →
      Inv (l.step (label i s e)))
    (reset : ∀ l, Inv l → Inv { l with talker := l.talker.reset })
    {phase : Phase} {events : List (Anytime M)}
    (allowed : Machine.Along step (On ok) (start phase) events) :
    ∀ i l, lane i (run (start phase) events) = some l → Inv l := by
  refine @Machine.invariant_along (State M) (Anytime M) step
    (fun s => ∀ i l, lane i s = some l → Inv l) (On ok) ?_ _ _ ?_ allowed
  · intro s e before meets i l' after
    cases e with
    | event e =>
      rcases lane_step after with ⟨l, here, rfl⟩ | ⟨queue_size, head_msg, -, rfl⟩
      · exact keep i s l e here (before i l here) (lane_guard here e) meets
      · exact new queue_size head_msg s.link
    | reset j =>
      rw [lane_reset] at after
      obtain ⟨l, here, rfl⟩ := Option.map_eq_some_iff.mp after
      split
      · exact reset l (before i l here)
      · exact before i l here
  · intro i l none
    simp [lane, start] at none

end Anytime

/-! ### What was pushed and what was transmitted -/

def Origin.ticket : Origin → Nat
  | .head => 0
  | .pushed n => n
  | .withdrawal n => n

def Slip.ticket (x : Slip M) : Nat := x.origin.ticket

def Entry.pushed? : Entry M → Option (Slip M)
  | .pushed x => some x
  | _ => none

def Entry.transmitted? : Entry M → Option (Slip M)
  | .sent _ x => if x.isHead then none else some x
  | _ => none

def pushedTo (log : List (Entry M)) : List (Slip M) := log.filterMap Entry.pushed?

/-- The messages that the sessions took, one session after the other, but for the head message. -/
def transmitted (log : List (Entry M)) : List (Slip M) := log.filterMap Entry.transmitted?

/-- The messages transmitted are a subsequence of the messages pushed, in which none comes twice. -/
def TransmitsInOrder (t : Talker M) : Prop :=
  (transmitted t.log).Sublist (pushedTo t.log) ∧ (transmitted t.log).Nodup

/-- When `talk` calls `pop` after a transmission, the message transmitted is not left at the front
behind a head message that is to be sent again. -/
def TakesOff (s : State M) : Event M → Prop
  | .talk _ =>
    match s.pc with
    | .pop i x (some _) =>
      x.isHead = false → s.talkers[i]?.all (fun t =>
        t.queue.head_popped || t.queue.q.head?.all fun y => y.origin ≠ x.origin) = true
    | _ => True
  | _ => True

instance (s : State M) : (e : Event M) → Decidable (TakesOff s e)
  | .talk accepts => by
    unfold TakesOff
    dsimp only
    generalize s.pc = pc
    rcases pc with _ | _ | _ | _ | _ | _ | ⟨i, x, _ | session⟩ | _ <;> dsimp only <;> infer_instance
  | .attach _ _ | .push _ _ | .destroy _ _ | .abandon _ | .resetTalkers | .link _ => .isTrue trivial

/-! ### The invariant of a lane -/

theorem Talker.empty_of_pop_none {t : Talker M} {taken : Slip M} {accepted : Option Nat}
    (stuck : t.pop taken accepted = none) : t.queue.q = [] := by
  have isPopped := Talker.popped_of_pop_none stuck
  cases contents : t.queue.q with
  | nil => rfl
  | cons x rest => simp [Talker.pop, TalkerQueue.next, TalkerQueue.pop, isPopped, contents] at stuck

open Classical in
noncomputable def behind (x : Slip M) : List (Slip M) → List (Slip M)
  | [] => []
  | y :: rest => if y = x then rest else y :: rest

noncomputable def Lane.waiting (l : Lane M) : List (Slip M) :=
  match l.hold with
  | .fetched x => if x.isHead then l.talker.queue.q else x :: behind x l.talker.queue.q
  | .checked x => if x.isHead then l.talker.queue.q else x :: behind x l.talker.queue.q
  | .handled x (some _) => if x.isHead then l.talker.queue.q else behind x l.talker.queue.q
  | _ => l.talker.queue.q

structure Ordered (l : Lane M) : Prop where
  head : l.talker.queue.head_msg.isHead = true
  queued : ∀ x ∈ l.talker.queue.q, x.isHead = false
  numbered : (pushedTo l.talker.log).map Slip.ticket = List.range l.talker.tickets
  ordered : (transmitted l.talker.log ++ l.waiting).Sublist (pushedTo l.talker.log)

def Ordered.Allowed (l : Lane M) : LaneEvent M → Prop
  | .push origin _ => ∀ n, (origin n).ticket = n
  | .pop => ∀ x session, l.hold = .handled x (some session) → x.isHead = false →
      l.talker.queue.head_popped = true ∨ ∀ y ∈ l.talker.queue.q.head?, y.origin ≠ x.origin
  | _ => True

theorem behind_sublist (x : Slip M) (q : List (Slip M)) : (behind x q).Sublist q := by
  cases q with
  | nil => exact .slnil
  | cons y rest =>
    rw [behind]
    split
    · exact List.sublist_cons_self y rest
    · exact .refl _

theorem behind_of_front {x : Slip M} {q : List (Slip M)} (front : q.head? = some x) :
    x :: behind x q = q := by
  obtain ⟨rest, rfl⟩ := List.head?_eq_some_iff.mp front
  simp [behind]

theorem behind_of_ne {x : Slip M} {q : List (Slip M)} (other : ∀ y ∈ q.head?, y.origin ≠ x.origin) :
    behind x q = q := by
  cases q with
  | nil => rfl
  | cons y rest =>
    have different : y ≠ x := fun same => other y rfl (congrArg Slip.origin same)
    simp [behind, different]

theorem sublist_cons_behind (x : Slip M) (q : List (Slip M)) : q.Sublist (x :: behind x q) := by
  cases q with
  | nil => exact List.nil_sublist _
  | cons y rest =>
    by_cases front : y = x
    · simp [behind, front]
    · simp [behind, front]

/-- The overflow loop only takes messages out of what is waiting. -/
theorem behind_suffix {x y : Slip M} {q kept : List (Slip M)} (suffix : kept <:+ q ++ [y]) :
    (behind x kept).Sublist (behind x q ++ [y]) := by
  cases q with
  | nil => exact (behind_sublist x kept).trans suffix.sublist
  | cons z rest =>
    by_cases front : z = x
    · rw [show behind x (z :: rest) = rest by simp [behind, front]]
      rcases List.suffix_cons_iff.mp suffix with rfl | less
      · show (behind x (z :: (rest ++ [y]))).Sublist (rest ++ [y])
        simp [behind, front]
      · exact (behind_sublist x kept).trans less.sublist
    · rw [show behind x (z :: rest) = z :: rest by simp [behind, front]]
      exact (behind_sublist x kept).trans suffix.sublist

theorem waiting_push (l : Lane M) (origin : Nat → Origin) (msg : M) :
    (Lane.waiting { l with talker := l.talker.push origin msg }).Sublist
      (l.waiting ++ [⟨origin l.talker.tickets, msg⟩]) := by
  have suffix : (l.talker.push origin msg).queue.q <:+
      l.talker.queue.q ++ [⟨origin l.talker.tickets, msg⟩] := by
    rw [Talker.push, TalkerQueue.push_q]
    exact Recent.rtake_suffix _ _
  have left (x : Slip M) := behind_suffix (x := x) suffix
  unfold Lane.waiting
  cases l.hold with
  | fetched x =>
    dsimp only
    split
    · exact suffix.sublist
    · exact (left x).cons_cons x
  | checked x =>
    dsimp only
    split
    · exact suffix.sublist
    · exact (left x).cons_cons x
  | handled x accepted =>
    cases accepted with
    | none => exact suffix.sublist
    | some session =>
      dsimp only
      split
      · exact suffix.sublist
      · exact left x
  | _ => exact suffix.sublist

theorem pushedTo_push (t : Talker M) (origin : Nat → Origin) (msg : M) :
    pushedTo (t.push origin msg).log = pushedTo t.log ++ [⟨origin t.tickets, msg⟩] := by
  simp [pushedTo, Talker.push, Entry.pushed?]

theorem transmitted_push (t : Talker M) (origin : Nat → Origin) (msg : M) :
    transmitted (t.push origin msg).log = transmitted t.log := by
  simp [transmitted, Talker.push, Entry.transmitted?]

theorem Ordered.transmitsInOrder {l : Lane M} (h : Ordered l) : TransmitsInOrder l.talker := by
  have sublist := (List.sublist_append_left _ _).trans h.ordered
  refine ⟨sublist, sublist.nodup ?_⟩
  have distinct : ((pushedTo l.talker.log).map Slip.ticket).Nodup := by
    rw [h.numbered]
    exact List.nodup_range
  exact List.Nodup.of_map _ distinct

theorem ordered_fresh (queue_size : Int32) (head_msg : M) (link : Link) :
    Ordered (.fresh queue_size head_msg link) := by
  constructor <;> simp [Lane.fresh, Talker.new, TalkerQueue.new, Slip.isHead, pushedTo, transmitted,
    Lane.waiting]

/-- A step of `talk` that transmits nothing. -/
theorem ordered_moves {l : Lane M} (h : Ordered l) {hold : Hold M}
    (fewer : (Lane.waiting { l with hold := hold }).Sublist l.waiting) :
    Ordered { l with hold := hold } where
  head := h.head
  queued := h.queued
  numbered := h.numbered
  ordered := ((List.Sublist.refl _).append fewer).trans h.ordered

theorem ordered_push {l : Lane M} (h : Ordered l) {origin : Nat → Origin} (msg : M)
    (own : ∀ n, origin n ≠ .head) (numbered : ∀ n, (origin n).ticket = n) :
    Ordered { l with talker := l.talker.push origin msg } where
  head := h.head
  queued x member := by
    rcases TalkerQueue.mem_push_q member with old | rfl
    · exact h.queued x old
    · simpa [Slip.isHead] using own l.talker.tickets
  numbered := by
    rw [pushedTo_push, List.map_append, h.numbered, Talker.push, List.range_succ]
    simp [Slip.ticket, numbered]
  ordered := by
    rw [pushedTo_push, transmitted_push]
    refine ((List.Sublist.refl _).append (waiting_push l origin msg)).trans ?_
    rw [← List.append_assoc]
    exact h.ordered.append (.refl _)

/-- A message that was not taken stays where it is. -/
theorem waiting_refused {l : Lane M} {x : Slip M}
    (holds : l.waiting = if x.isHead then l.talker.queue.q else x :: behind x l.talker.queue.q) :
    (Lane.waiting { l with hold := .handled x none }).Sublist l.waiting := by
  rw [holds]
  show l.talker.queue.q.Sublist _
  split
  · exact .refl _
  · exact sublist_cons_behind x _

theorem sublist_behind {x y : Slip M} (rest : List (Slip M)) : rest.Sublist (behind x (y :: rest)) := by
  rw [behind]
  split
  · exact .refl _
  · exact List.sublist_cons_self y rest

theorem waiting_pop {l : Lane M} {taken : Slip M} {accepted : Option Nat}
    {queue : TalkerQueue (Slip M)} (hold : l.hold = .handled taken accepted)
    (pop : l.talker.queue.pop = some queue)
    (off : ∀ session, accepted = some session → taken.isHead = false →
      l.talker.queue.head_popped = true ∨ ∀ y ∈ l.talker.queue.q.head?, y.origin ≠ taken.origin) :
    queue.q.Sublist l.waiting := by
  rcases TalkerQueue.pop_cases pop with ⟨pending, rfl⟩ | ⟨-, y, rest, contents, rfl⟩
  · simp only [Lane.waiting, hold]
    cases accepted with
    | none => exact .refl _
    | some session =>
      dsimp only
      split
      · exact .refl _
      · rename_i queued
        have other := (off session rfl (by simpa using queued)).resolve_left (by simp [pending])
        rw [behind_of_ne other]
  · simp only [Lane.waiting, hold, contents]
    cases accepted with
    | none => exact List.sublist_cons_self y rest
    | some session =>
      dsimp only
      split
      · exact List.sublist_cons_self y rest
      · exact sublist_behind rest

theorem ordered_stuck {l : Lane M} (h : Ordered l) (empty : l.talker.queue.q = []) :
    Ordered { l with hold := .away } := by
  refine ordered_moves h ?_
  simp [Lane.waiting, empty]

theorem ordered_pop {l : Lane M} {taken removed : Slip M} {accepted : Option Nat}
    {queue : TalkerQueue (Slip M)} (h : Ordered l) (pop : l.talker.queue.pop = some queue)
    (fewer : queue.q.Sublist l.waiting) :
    Ordered { l with
      talker := { l.talker with
        queue := queue, log := l.talker.log ++ [.popped removed taken accepted] },
      hold := .away } := by
  obtain ⟨head_msg, subset, -⟩ := TalkerQueue.pop_keeps pop
  have pushed : pushedTo (l.talker.log ++ [.popped removed taken accepted]) = pushedTo l.talker.log := by
    simp [pushedTo, Entry.pushed?, List.filterMap_cons]
  have sent : transmitted (l.talker.log ++ [.popped removed taken accepted]) = transmitted l.talker.log := by
    simp [transmitted, Entry.transmitted?, List.filterMap_cons]
  refine ⟨by rw [head_msg]; exact h.head, fun x member => h.queued x (subset x member), ?_, ?_⟩
  · rw [pushed]
    exact h.numbered
  · rw [pushed, sent]
    exact ((List.Sublist.refl _).append fewer).trans h.ordered

/-- The message is now transmitted, and no longer waiting. -/
theorem ordered_transmit {l : Lane M} {x : Slip M} (h : Ordered l) (hold : l.hold = .checked x) :
    Ordered { l with
      talker := { l.talker with log := l.talker.log ++ [.sent l.link.session x] },
      hold := .handled x (some l.link.session) } := by
  have pushed : pushedTo (l.talker.log ++ [.sent l.link.session x]) = pushedTo l.talker.log := by
    simp [pushedTo, Entry.pushed?, List.filterMap_cons]
  refine ⟨h.head, h.queued, ?_, ?_⟩
  · rw [pushed]
    exact h.numbered
  · have ordered := h.ordered
    rw [pushed]
    simp only [Lane.waiting, hold] at ordered ⊢
    cases isHead : x.isHead with
    | true => simpa [transmitted, Entry.transmitted?, List.filterMap_cons, isHead] using ordered
    | false => simpa [transmitted, Entry.transmitted?, List.filterMap_cons, isHead] using ordered

theorem ordered_step {l : Lane M} {e : LaneEvent M} (h : Ordered l) (guard : l.Guard e)
    (ok : Ordered.Allowed l e) : Ordered (l.step e) := by
  cases e with
  | other => exact h
  | push origin msg => exact ordered_push h msg guard ok
  | abandon => exact ⟨h.head, h.queued, h.numbered, h.ordered⟩
  | empty =>
    have away : l.hold = .away := guard
    refine ordered_moves h ?_
    simp [Lane.waiting, away]
  | next =>
    have ready : l.hold = .ready := guard
    have all : l.waiting = l.talker.queue.q := by simp [Lane.waiting, ready]
    rcases l.next_cases with ⟨-, away⟩ | ⟨x, next, fetched⟩
    · rw [away]
      refine ordered_moves h ?_
      simp [Lane.waiting, ready]
    · rw [fetched]
      refine ordered_moves h ?_
      rw [all, Lane.waiting]
      rcases TalkerQueue.next_cases next with ⟨-, rfl⟩ | ⟨-, front⟩
      · simp [h.head]
      · have queued := h.queued x (List.mem_of_head? front)
        simp [queued, behind_of_front front]
  | send =>
    rcases l.send_cases with same | ⟨x, hold, ⟨-, checked⟩ | ⟨-, handled⟩⟩
    · rwa [same]
    · rw [checked]
      refine ordered_moves h ?_
      simp [Lane.waiting, hold]
    · rw [handled]
      exact ordered_moves h (waiting_refused (by simp [Lane.waiting, hold]))
  | message_sender accepts =>
    rcases l.message_sender_cases accepts with same | ⟨x, hold, ⟨-, -, -, sent⟩ | ⟨-, handled⟩⟩
    · rwa [same]
    · rw [sent]
      exact ordered_transmit h hold
    · rw [handled]
      exact ordered_moves h (waiting_refused (by simp [Lane.waiting, hold]))
  | pop =>
    cases hold : l.hold with
    | handled taken accepted =>
      have off : ∀ session, accepted = some session → taken.isHead = false →
          l.talker.queue.head_popped = true ∨
            ∀ y ∈ l.talker.queue.q.head?, y.origin ≠ taken.origin := by
        rintro session rfl
        exact ok taken session hold
      cases popped : l.talker.pop taken accepted with
      | none =>
        simp only [Lane.step, hold, popped]
        exact ordered_stuck h (Talker.empty_of_pop_none popped)
      | some t =>
        obtain ⟨removed, queue, -, pop, rfl⟩ := Talker.pop_spec popped
        simp only [Lane.step, hold, popped]
        exact ordered_pop h pop (waiting_pop hold pop off)
    | _ => simpa [Lane.step, hold] using h
  | reset => exact ⟨h.head, h.queued, h.numbered, h.ordered⟩
  | link link => exact ⟨h.head, h.queued, h.numbered, h.ordered⟩
  | opened => exact ⟨h.head, h.queued, h.numbered, h.ordered⟩

/-! ### Every run -/

theorem ordered_allowed {i : Nat} {s : State M} {l : Lane M} {e : Event M} (here : lane i s = some l)
    (off : TakesOff s e) : Ordered.Allowed l (label i s e) := by
  obtain ⟨found, -, -, -⟩ := lane_eq_some here
  have sees := label_sees here e
  generalize label i s e = seen at sees
  cases sees with
  | push msg => exact fun n => rfl
  | destroy msg => exact fun n => rfl
  | pop accepts x accepted pc handled =>
    intro y session hold queued
    rw [handled] at hold
    obtain ⟨rfl, rfl⟩ : x = y ∧ accepted = some session := by simpa using hold
    simp only [TakesOff, pc] at off
    simpa [found, Option.all_eq_true] using off queued
  | _ => trivial

/-- Whatever the resets, messages are transmitted in the order of the pushes, and none twice, as
long as each `pop` takes off the message that was transmitted. -/
theorem transmits_in_push_order {phase : Phase} {events : List (Anytime M)}
    (off : Machine.Along Anytime.step (Anytime.On TakesOff) (start phase) events) :
    ∀ t ∈ (Anytime.run (start phase) events).talkers, TransmitsInOrder t := by
  intro t member
  obtain ⟨i, l, here, rfl⟩ := lane_of_mem member
  refine Ordered.transmitsInOrder (Anytime.lane_invariant ordered_fresh ?_ ?_ off i l here)
  · exact fun _ _ _ _ here before guard ok => ordered_step before guard (ordered_allowed here ok)
  · exact fun l h => ⟨h.head, h.queued, h.numbered, h.ordered⟩

/-- A message is transmitted, and the websocket closes and opens again before `pop`. -/
def stalled : List (Event Serializer) :=
  .attach 10 advertise :: connects 1 ++ talks 8 ++ .push 0 (chatter "one" "2") :: talks 6 ++
    [.link .closed, .link .clear_sender, .link .clear_active] ++ connects 1 ++ talks 10

theorem stalled_is_transmitted_twice :
    Machine.Along Anytime.step (Anytime.On SendSucceeds) (start .offline)
        (stalled.map .event) ∧
      ∃ t ∈ (Anytime.run (start .offline) (stalled.map .event)).talkers,
        transmitted t.log = [⟨.pushed 0, chatter "one" "2"⟩, ⟨.pushed 0, chatter "one" "2"⟩] ∧
          ¬ TransmitsInOrder t := by
  let head : Slip Serializer := ⟨.head, advertise⟩
  let one : Slip Serializer := ⟨.pushed 0, chatter "one" "2"⟩
  let t : Talker Serializer :=
    { queue := { q_size := 10, head_msg := head, head_popped := true }
      tickets := 1
      log := [.sent 1 head, .popped head head (some 1), .pushed one, .sent 1 one,
        .popped head one (some 1), .sent 2 one, .popped one one (some 2)] }
  have final : (Anytime.run (start .offline) (stalled.map .event)).talkers = [t] := by rfl
  refine ⟨by decide +kernel, t, by rw [final]; exact List.mem_singleton_self t, rfl, fun inOrder => ?_⟩
  have distinct : [one, one].Nodup := inOrder.2
  simp at distinct

theorem transmits_in_push_order_resets :
    Machine.Along Anytime.step (Anytime.On TakesOff) (start .opened)
        ((unhurried.map .event) ++ [.reset 0] ++ (talks 16).map .event) ∧
      ∀ t ∈ (Anytime.run (start .opened)
        ((unhurried.map .event) ++ [.reset 0] ++ (talks 16).map .event)).talkers, TransmitsInOrder t := by
  have off : Machine.Along Anytime.step (Anytime.On TakesOff) (start .opened)
      ((unhurried.map .event) ++ [.reset 0] ++ (talks 16).map .event) := by decide +kernel
  exact ⟨off, transmits_in_push_order off⟩

end Rosbridge.Talk
