import Mathlib.Data.List.Forall2
import Rosbridge.Talk.Session

/-!
# The passes of the sender loop

A pass of `talk` visits the queues in the order of their attachment, and a visit takes the next
message of a queue that has one. While the websocket stays open and nothing else works on the queues,
the passes drain them side by side, one message of each at a time.
-/

namespace Rosbridge

variable {M : Type}

namespace TalkerQueue

/-- What the queue has to send: its head message if that is pending, and the stored messages. -/
def contents (t : TalkerQueue M) : List M := (if t.head_popped then [] else [t.head_msg]) ++ t.q

theorem empty_eq (t : TalkerQueue M) : t.empty = t.contents.isEmpty := by
  cases popped : t.head_popped <;> simp [TalkerQueue.empty, contents, popped]

theorem next_eq (t : TalkerQueue M) : t.next = t.contents.head? := by
  cases popped : t.head_popped <;> simp [TalkerQueue.next, contents, popped]

theorem pop_contents {t : TalkerQueue M} {x : M} {rest : List M} (held : t.contents = x :: rest) :
    ∃ t', t.pop = some t' ∧ t'.contents = rest := by
  cases popped : t.head_popped with
  | false =>
    refine ⟨{ t with head_popped := true }, by simp [TalkerQueue.pop, popped], ?_⟩
    simp only [contents, popped, Bool.false_eq_true, if_false, List.singleton_append, List.cons.injEq] at held
    simpa [contents] using held.2
  | true =>
    have stored : t.q = x :: rest := by simpa [contents, popped] using held
    exact ⟨{ t with q := rest }, by simp [TalkerQueue.pop, popped, stored], by simp [contents, popped]⟩

end TalkerQueue

namespace Talk

def wire (s : State M) : Event M → Option (Nat × Slip M)
  | .talk accepts =>
    match s.pc with
    | .message_sender i x => (s.link.message_sender accepts).map fun _ => (i, x)
    | _ => none
  | _ => none

def wires : State M → List (Event M) → List (Nat × Slip M)
  | _, [] => []
  | s, e :: rest => (wire s e).toList ++ wires (step s e) rest

/-- `talk` goes on, and the websocket takes what it gets. -/
def steps (n : Nat) : List (Event M) := List.replicate n (.talk true)

/-- So many steps are one call of `talk`: the last of them is the first to return. -/
def IsPass (s : State M) (n : Nat) : Prop :=
  ∃ m, n = m + 1 ∧ Machine.Along step (fun s e => (step s e).pc ≠ .idle) s (steps m) ∧
    (run s (steps n)).pc = .idle

def cost (t : Talker M) : Nat := if t.queue.empty then 2 else 6

def duration (s : State M) : Nat := (s.talkers.map cost).sum + 2

def passes : Nat → State M → State M
  | 0, s => s
  | n + 1, s => run (passes n s) (steps (duration (passes n s)))

/-- The message with that number of each queue that has so many, in the order of the queues. -/
def round (k : Nat) : Nat → List (Talker M) → List (Nat × Slip M)
  | _, [] => []
  | i, t :: rest => (t.queue.contents[k]?.map fun x => (i, x)).toList ++ round k (i + 1) rest

theorem wires_append (s : State M) (before after : List (Event M)) :
    wires s (before ++ after) = wires s before ++ wires (run s before) after := by
  induction before generalizing s with
  | nil => rfl
  | cons e rest ih =>
    rw [List.cons_append, wires, wires, ih, List.append_assoc]
    rfl

/-! ### One visit -/

structure Busy (s t : State M) (taken : List (Nat × Slip M)) (n : Nat) : Prop where
  reaches : run s (steps n) = t
  wires : wires s (steps n) = taken
  busy : Machine.Along step (fun s e => (step s e).pc ≠ .idle) s (steps n)

namespace Busy

variable {s t u : State M} {taken more : List (Nat × Slip M)} {n m : Nat}

theorem one (moves : talk s true = t) (busy : t.pc ≠ .idle) : Busy s t (wire s (.talk true)).toList 1 where
  reaches := moves
  wires := List.append_nil _
  busy := by
    refine ⟨?_, trivial⟩
    show (talk s true).pc ≠ .idle
    rwa [moves]

theorem trans (first : Busy s t taken n) (second : Busy t u more m) : Busy s u (taken ++ more) (n + m) := by
  obtain ⟨rfl, rfl, busy⟩ := first
  obtain ⟨reaches, rfl, busy'⟩ := second
  have split : (steps (n + m) : List (Event M)) = steps n ++ steps m := List.replicate_add ..
  refine ⟨?_, ?_, ?_⟩
  · rw [split, run, Machine.run_append]
    exact reaches
  · rw [split, wires_append]
  · rw [split, Machine.along_append]
    exact ⟨busy, busy'⟩

end Busy

structure Visited (session n : Nat) (t t' : Talker M) : Prop where
  contents : t'.queue.contents = t.queue.contents.drop n
  sent : sentIn session t'.log = sentIn session t.log ++ t.queue.contents.take n

theorem visit_empty {s : State M} {i : Nat} {t : Talker M} (opened : s.link.phase = .opened)
    (pc : s.pc = .active i) (found : s.talkers[i]? = some t) (empty : t.queue.empty = true) :
    Busy s { s with pc := .active (i + 1) } [] 2 := by
  have inside : i < s.talkers.length := (List.getElem?_eq_some_iff.mp found).1
  have active : s.link.active = true := by simp [Link.active, opened]
  have first : Busy s { s with pc := .empty i } [] 1 := by
    simpa [wire, pc] using Busy.one (s := s) (t := { s with pc := .empty i })
      (by simp [talk, pc, inside, active]) (by simp)
  exact first.trans (.one (by simp [talk, found, empty]) (by simp))

/-- The steps of a visit that finds a message. -/
theorem visit_some {s : State M} {i : Nat} {t : Talker M} {x : Slip M} {rest : List (Slip M)}
    (opened : s.link.phase = .opened) (pc : s.pc = .active i) (found : s.talkers[i]? = some t)
    (held : t.queue.contents = x :: rest) :
    ∃ t', Busy s { s with talkers := s.talkers.set i t', pc := .active (i + 1) } [(i, x)] 6 ∧
      t'.queue.contents = rest ∧ sentIn s.link.session t'.log = sentIn s.link.session t.log ++ [x] := by
  have inside : i < s.talkers.length := (List.getElem?_eq_some_iff.mp found).1
  have active : s.link.active = true := by simp [Link.active, opened]
  have accepted : s.link.message_sender true = some s.link.session := if_pos ⟨opened, rfl⟩
  have some_left : t.queue.empty = false := by rw [TalkerQueue.empty_eq, held]; rfl
  have front : t.queue.next = some x := by rw [TalkerQueue.next_eq, held]; rfl
  obtain ⟨queue, popped, left⟩ := TalkerQueue.pop_contents held
  let sender := t.transmit x (some s.link.session)
  let after : Talker M :=
    { sender with queue := queue, log := sender.log ++ [.popped x x (some s.link.session)] }
  have pops : sender.pop x (some s.link.session) = some after := by
    simp [Talker.pop, after, sender, Talker.transmit, front, popped]
  have first : Busy s { s with pc := .empty i } [] 1 := by
    simpa [wire, pc] using Busy.one (s := s) (t := { s with pc := .empty i })
      (by simp [talk, pc, inside, active]) (by simp)
  have second : Busy { s with pc := .empty i } { s with pc := .next i } [] 1 :=
    .one (by simp [talk, found, some_left]) (by simp)
  have third : Busy { s with pc := .next i } { s with pc := .send i x } [] 1 :=
    .one (by simp [talk, found, front]) (by simp)
  have fourth : Busy { s with pc := .send i x } { s with pc := .message_sender i x } [] 1 :=
    .one (by simp [talk, active]) (by simp)
  have fifth : Busy { s with pc := .message_sender i x }
      { s with talkers := s.talkers.set i sender, pc := .pop i x (some s.link.session) } [(i, x)] 1 := by
    have set : s.talkers.modify i (fun t => t.transmit x (some s.link.session)) =
        s.talkers.set i sender := by
      refine List.ext_getElem? fun j => ?_
      by_cases same : i = j
      · subst same
        rw [List.getElem?_modify_eq, found, List.getElem?_set_self inside]
        rfl
      · rw [List.getElem?_modify_ne _ _ same, List.getElem?_set_ne same]
    simpa [wire, accepted] using Busy.one (s := { s with pc := .message_sender i x })
      (t := { s with talkers := s.talkers.set i sender, pc := .pop i x (some s.link.session) })
      (by simp [talk, accepted, set]) (by simp)
  refine ⟨after, first.trans (second.trans (third.trans (fourth.trans (fifth.trans (.one ?_ ?_))))), left, ?_⟩
  · simp [talk, List.getElem?_set_self inside, pops, List.set_set]
  · simp
  · exact (sentIn_popped _ _ _ _ _).trans (sentIn_sent_self _ _ _)

theorem visit {s : State M} {i : Nat} {t : Talker M} (opened : s.link.phase = .opened)
    (pc : s.pc = .active i) (found : s.talkers[i]? = some t) :
    ∃ t', Busy s { s with talkers := s.talkers.set i t', pc := .active (i + 1) }
      (t.queue.contents[0]?.map fun x => (i, x)).toList (cost t) ∧ Visited s.link.session 1 t t' := by
  cases held : t.queue.contents with
  | nil =>
    have empty : t.queue.empty = true := by rw [TalkerQueue.empty_eq, held]; rfl
    have same : s.talkers.set i t = s.talkers := by
      obtain ⟨inside, rfl⟩ := List.getElem?_eq_some_iff.mp found
      exact List.set_getElem_self inside
    refine ⟨t, ?_, by simp [held], by simp [held]⟩
    rw [same, cost, if_pos empty]
    exact visit_empty opened pc found empty
  | cons x rest =>
    have some_left : t.queue.empty = false := by rw [TalkerQueue.empty_eq, held]; rfl
    obtain ⟨t', busy, left, sent⟩ := visit_some opened pc found held
    refine ⟨t', ?_, by rw [left, held]; rfl, by rw [sent, held]; rfl⟩
    rw [cost, some_left]
    exact busy

/-! ### One pass -/

theorem visits {s : State M} (opened : s.link.phase = .opened) (before : List (Talker M))
    {rest : List (Talker M)} (split : s.talkers = before ++ rest) (pc : s.pc = .active before.length) :
    ∃ rest', Busy s { s with talkers := before ++ rest', pc := .active s.talkers.length }
      (round 0 before.length rest) (rest.map cost).sum ∧
      List.Forall₂ (Visited s.link.session 1) rest rest' := by
  induction rest generalizing s before with
  | nil =>
    refine ⟨[], ?_, .nil⟩
    have same : s = { s with talkers := before ++ [], pc := .active s.talkers.length } := by
      obtain ⟨talkers, pc', link, resetTalkers⟩ := s
      obtain rfl : talkers = before ++ [] := split
      simpa using pc
    exact ⟨same, rfl, trivial⟩
  | cons t rest ih =>
    have found : s.talkers[before.length]? = some t := by simp [split]
    obtain ⟨t', first, visited⟩ := visit opened pc found
    have moved : s.talkers.set before.length t' = (before ++ [t']) ++ rest := by simp [split]
    rw [moved] at first
    obtain ⟨rest', others, all⟩ := ih
      (s := { s with talkers := (before ++ [t']) ++ rest, pc := .active (before.length + 1) })
      opened (before ++ [t']) rfl (by simp)
    refine ⟨t' :: rest', ?_, .cons visited all⟩
    have whole := first.trans others
    have size : ((before ++ [t']) ++ rest).length = s.talkers.length := by simp [split]
    dsimp only at whole
    rw [size] at whole
    simpa [round] using whole

/-- A pass takes the next message of each queue that has one, in the order of the queues. -/
theorem pass {s : State M} (idle : s.pc = .idle) (opened : s.link.phase = .opened) :
    IsPass s (duration s) ∧ wires s (steps (duration s)) = round 0 0 s.talkers ∧
      ∃ talkers, run s (steps (duration s)) = { s with talkers := talkers } ∧
        List.Forall₂ (Visited s.link.session 1) s.talkers talkers := by
  have active : s.link.active = true := by simp [Link.active, opened]
  have first : Busy s { s with pc := .active 0 } [] 1 := by
    simpa [wire, idle] using Busy.one (s := s) (t := { s with pc := .active 0 })
      (by simp [talk, idle]) (by simp)
  obtain ⟨talkers, visiting, visited⟩ :=
    visits (s := { s with pc := .active 0 }) opened [] rfl rfl
  obtain ⟨reaches, taken, busy⟩ := first.trans visiting
  have size : talkers.length = s.talkers.length := visited.length_eq.symm
  have split : steps (duration s) = steps (1 + (s.talkers.map cost).sum) ++ [(.talk true : Event M)] := by
    rw [duration, show (s.talkers.map cost).sum + 2 = 1 + (s.talkers.map cost).sum + 1 by omega]
    exact List.replicate_succ'
  have returns : step { s with talkers := talkers, pc := .active s.talkers.length } (.talk true) =
      { s with talkers := talkers } := by
    rw [show ({ s with talkers := talkers } : State M) = { s with talkers := talkers, pc := .idle } by
      rw [← idle]]
    simp [step, talk, size]
  have ends : run s (steps (duration s)) = { s with talkers := talkers } := by
    rw [split]
    exact (Machine.run_append _ _ _).trans ((congrArg (run · [.talk true]) reaches).trans returns)
  refine ⟨⟨1 + (s.talkers.map cost).sum, by rw [duration]; omega, busy, ?_⟩, ?_, talkers, ends, visited⟩
  · rw [ends]
    exact idle
  · rw [split, wires_append, taken, reaches]
    simp [wires, wire]

/-! ### Many passes -/

theorem visited_none (session : Nat) (t : Talker M) : Visited session 0 t t where
  contents := rfl
  sent := (List.append_nil _).symm

theorem Visited.trans {session n m : Nat} {t u v : Talker M} (first : Visited session n t u)
    (second : Visited session m u v) : Visited session (n + m) t v where
  contents := by rw [second.contents, first.contents, List.drop_drop]
  sent := by rw [second.sent, first.sent, first.contents, List.append_assoc, List.take_add]

theorem visited_all {session n m : Nat} {ts us vs : List (Talker M)}
    (first : List.Forall₂ (Visited session n) ts us) (second : List.Forall₂ (Visited session m) us vs) :
    List.Forall₂ (Visited session (n + m)) ts vs := by
  induction first generalizing vs with
  | nil =>
    cases second
    exact .nil
  | cons head _ ih =>
    cases second with
    | cons head' tail' => exact .cons (head.trans head') (ih tail')

/-- What is next after some visits is what stood behind as many messages before. -/
theorem round_visited {session n : Nat} {ts us : List (Talker M)}
    (visited : List.Forall₂ (Visited session n) ts us) (i : Nat) : round 0 i us = round n i ts := by
  induction visited generalizing i with
  | nil => rfl
  | cons head _ ih => simp [round, ih, head.contents]

theorem drained {session n : Nat} {ts us : List (Talker M)}
    (visited : List.Forall₂ (Visited session n) ts us)
    (enough : ∀ t ∈ ts, t.queue.contents.length ≤ n) : ∀ u ∈ us, u.queue.empty = true := by
  induction visited with
  | nil => simp
  | cons head _ ih =>
    rw [List.forall_mem_cons] at enough ⊢
    refine ⟨?_, ih enough.2⟩
    rw [TalkerQueue.empty_eq, head.contents, List.drop_eq_nil_of_le enough.1]
    rfl

theorem passes_visit {s : State M} (idle : s.pc = .idle) (opened : s.link.phase = .opened) (n : Nat) :
    ∃ talkers, passes n s = { s with talkers := talkers } ∧
      List.Forall₂ (Visited s.link.session n) s.talkers talkers := by
  induction n with
  | zero => exact ⟨s.talkers, rfl, List.forall₂_same.mpr fun t _ => visited_none _ t⟩
  | succ n ih =>
    obtain ⟨talkers, before, visited⟩ := ih
    obtain ⟨-, -, talkers', after, visited'⟩ := pass (s := { s with talkers := talkers }) idle opened
    refine ⟨talkers', ?_, visited_all visited visited'⟩
    rw [passes, before]
    exact after

/-- Every pass is one call of `talk`, in which the websocket takes the next message of each queue that
has one, queue after queue. After `n` passes it has taken the first `n` messages of each queue, and
the rest is left. -/
theorem passes_drain_side_by_side (s : State M) (idle : s.pc = .idle) (opened : s.link.phase = .opened)
    (n : Nat) :
    (∀ k, k < n → IsPass (passes k s) (duration (passes k s)) ∧
      wires (passes k s) (steps (duration (passes k s))) = round 0 0 (passes k s).talkers ∧
      round 0 0 (passes k s).talkers = round k 0 s.talkers) ∧
    List.Forall₂ (Visited s.link.session n) s.talkers (passes n s).talkers ∧
    ((∀ t ∈ s.talkers, t.queue.contents.length ≤ n) →
      ∀ t ∈ (passes n s).talkers, t.queue.empty = true) := by
  obtain ⟨talkers, after, visited⟩ := passes_visit idle opened n
  refine ⟨fun k _ => ?_, ?_, fun enough => ?_⟩
  · obtain ⟨talkers, before, visited⟩ := passes_visit idle opened k
    obtain ⟨isPass, taken, -⟩ := pass (s := { s with talkers := talkers }) idle opened
    rw [before]
    exact ⟨isPass, taken, round_visited visited 0⟩
  · rw [after]
    exact visited
  · rw [after]
    exact drained visited enough

/-- Three queues with a head message pending: one message more, none, and two that are sent already. -/
def uneven : State Serializer :=
  run (start .offline) ([.attach 5 advertise, .attach 5 advertise, .attach 5 advertise] ++ connects 3 ++
    [.push 0 (chatter "one" "2"), .push 2 (chatter "two" "3"), .push 2 (chatter "three" "4")])

theorem uneven_is_drained :
    (passes 1 uneven).talkers.map (fun t => t.queue.contents.length) = [1, 0, 2] ∧
      ∀ t ∈ (passes 3 uneven).talkers, t.queue.empty = true := by
  obtain ⟨-, -, drained⟩ := passes_drain_side_by_side uneven rfl rfl 3
  exact ⟨by decide +kernel, drained (by decide +kernel)⟩

end Talk

end Rosbridge
