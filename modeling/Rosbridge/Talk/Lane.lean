import Rosbridge.Talk.System

/-!
# One queue at a time

The laws of the sender loop are about each queue by itself. A lane is what one queue can see of
the system: its talker, what `talk` holds of it, the websocket, and whether the open handler still
has to reset it. `lane_step` says that every step of the system is a step of each lane, and
`lane_invariant` carries an invariant of lanes over every run.
-/

namespace Rosbridge.Talk

variable {M : Type}

/-- What `talk` holds of a queue, from `empty` returning false to `pop`. -/
inductive Hold (M : Type) where
  | away
  | ready
  | fetched (x : Slip M)
  | checked (x : Slip M)
  | handled (x : Slip M) (accepted : Option Nat)

namespace Hold

def taken : Hold M → Option (Slip M)
  | .fetched x => some x
  | .checked x => some x
  | .handled x _ => some x
  | _ => none

@[simp] theorem taken_away : (away : Hold M).taken = none := rfl
@[simp] theorem taken_ready : (ready : Hold M).taken = none := rfl
@[simp] theorem taken_fetched (x : Slip M) : (fetched x).taken = some x := rfl
@[simp] theorem taken_checked (x : Slip M) : (checked x).taken = some x := rfl
@[simp] theorem taken_handled (x : Slip M) (accepted : Option Nat) :
    (handled x accepted).taken = some x := rfl

end Hold

def Pc.hold (i : Nat) : Pc M → Hold M
  | .next j => if j = i then .ready else .away
  | .send j x => if j = i then .fetched x else .away
  | .message_sender j x => if j = i then .checked x else .away
  | .pop j x accepted => if j = i then .handled x accepted else .away
  | _ => .away

structure Lane (M : Type) where
  talker : Talker M
  hold : Hold M
  link : Link
  pending : Bool

inductive LaneEvent (M : Type) where
  | other
  | push (origin : Nat → Origin) (msg : M)
  | abandon
  | empty
  | next
  | send
  | message_sender (accepts : Bool)
  | pop
  | reset
  | link (l : Link)
  | opened

namespace Lane

def fresh (queue_size : Int32) (head_msg : M) (link : Link) : Lane M :=
  ⟨.new queue_size head_msg, .away, link, false⟩

def step (l : Lane M) : LaneEvent M → Lane M
  | .other => l
  | .push origin msg => { l with talker := l.talker.push origin msg }
  | .abandon => { l with talker := l.talker.abandon }
  | .empty => { l with hold := .ready }
  | .next =>
    match l.talker.queue.next with
    | none => { l with hold := .away }
    | some x => { l with hold := .fetched x }
  | .send =>
    match l.hold with
    | .fetched x => { l with hold := if l.link.active then .checked x else .handled x none }
    | _ => l
  | .message_sender accepts =>
    match l.hold with
    | .checked x =>
      let accepted := l.link.message_sender accepts
      { l with talker := l.talker.transmit x accepted, hold := .handled x accepted }
    | _ => l
  | .pop =>
    match l.hold with
    | .handled x accepted =>
      match l.talker.pop x accepted with
      | none => { l with hold := .away }
      | some t => { l with talker := t, hold := .away }
    | _ => l
  | .reset => { l with talker := l.talker.reset, pending := false }
  | .link link => { l with link := link }
  | .opened => { l with link := ⟨.opened, l.link.session + 1⟩, pending := true }

theorem next_cases (l : Lane M) :
    (l.talker.queue.head_popped = true ∧ l.step .next = { l with hold := .away }) ∨
    ∃ x, l.talker.queue.next = some x ∧ l.step .next = { l with hold := .fetched x } := by
  cases next : l.talker.queue.next with
  | none => exact .inl ⟨TalkerQueue.popped_of_next_none next, by simp [step, next]⟩
  | some x => exact .inr ⟨x, rfl, by simp [step, next]⟩

theorem send_cases (l : Lane M) :
    l.step .send = l ∨
    ∃ x, l.hold = .fetched x ∧
      (l.link.phase = .opened ∧ l.step .send = { l with hold := .checked x } ∨
        l.link.phase ≠ .opened ∧ l.step .send = { l with hold := .handled x none }) := by
  cases hold : l.hold with
  | fetched x =>
    refine .inr ⟨x, rfl, ?_⟩
    by_cases isOpen : l.link.phase = .opened
    · exact .inl ⟨isOpen, by simp [step, hold, Link.active, isOpen]⟩
    · exact .inr ⟨isOpen, by simp [step, hold, Link.active, isOpen]⟩
  | _ => exact .inl (by simp [step, hold])

theorem message_sender_cases (l : Lane M) (accepts : Bool) :
    l.step (.message_sender accepts) = l ∨
    ∃ x, l.hold = .checked x ∧
      (l.link.message_sender accepts = some l.link.session ∧ l.link.phase = .opened ∧
          accepts = true ∧
          l.step (.message_sender accepts) = { l with
            talker := { l.talker with log := l.talker.log ++ [.sent l.link.session x] },
            hold := .handled x (some l.link.session) } ∨
        ¬ (l.link.phase = .opened ∧ accepts = true) ∧
          l.step (.message_sender accepts) = { l with hold := .handled x none }) := by
  cases hold : l.hold with
  | checked x =>
    refine .inr ⟨x, rfl, ?_⟩
    by_cases taken : l.link.phase = .opened ∧ accepts = true
    · have accepted : l.link.message_sender accepts = some l.link.session := if_pos taken
      exact .inl ⟨accepted, taken.1, taken.2, by simp [step, hold, accepted, Talker.transmit]⟩
    · have refused : l.link.message_sender accepts = none := if_neg taken
      exact .inr ⟨taken, by simp [step, hold, refused, Talker.transmit]⟩
  | _ => exact .inl (by simp [step, hold])

theorem pop_cases (l : Lane M) :
    l.step .pop = l ∨
    ∃ taken accepted, l.hold = .handled taken accepted ∧
      (l.talker.queue.head_popped = true ∧ l.step .pop = { l with hold := .away } ∨
        ∃ removed queue, l.talker.queue.next = some removed ∧ l.talker.queue.pop = some queue ∧
          l.step .pop = { l with
            talker := { l.talker with
              queue := queue, log := l.talker.log ++ [.popped removed taken accepted] },
            hold := .away }) := by
  cases hold : l.hold with
  | handled taken accepted =>
    refine .inr ⟨taken, accepted, rfl, ?_⟩
    cases popped : l.talker.pop taken accepted with
    | none => exact .inl ⟨Talker.popped_of_pop_none popped, by simp [step, hold, popped]⟩
    | some t =>
      obtain ⟨removed, queue, next, pop, rfl⟩ := Talker.pop_spec popped
      exact .inr ⟨removed, queue, next, pop, by simp [step, hold, popped]⟩
  | _ => exact .inl (by simp [step, hold])

/-- A step that pushes nothing takes at most the front off the queue, and logs no push and no overflow. -/
theorem talker_cases {l : Lane M} {e : LaneEvent M} (quiet : ∀ origin msg, e ≠ .push origin msg) :
    ∃ queue new, queue.q_size = l.talker.queue.q_size ∧ queue.q <:+ l.talker.queue.q ∧
      (∀ x, .pushed x ∉ new ∧ .evicted x ∉ new) ∧
      (l.step e).talker = { l.talker with queue := queue, log := l.talker.log ++ new } := by
  have unchanged {l' : Lane M} {queue : TalkerQueue (Slip M)} (size : queue.q_size = l.talker.queue.q_size)
      (kept : queue.q = l.talker.queue.q) (same : l'.talker = { l.talker with queue := queue }) :
      ∃ queue new, queue.q_size = l.talker.queue.q_size ∧ queue.q <:+ l.talker.queue.q ∧
        (∀ x, .pushed x ∉ new ∧ .evicted x ∉ new) ∧
        l'.talker = { l.talker with queue := queue, log := l.talker.log ++ new } :=
    ⟨queue, [], size, kept ▸ List.suffix_rfl, by simp, by rw [same, List.append_nil]⟩
  cases e with
  | push origin msg => exact absurd rfl (quiet origin msg)
  | abandon => exact @unchanged (l.step .abandon) l.talker.queue.abandon rfl rfl rfl
  | reset => exact @unchanged (l.step .reset) l.talker.queue.reset rfl rfl rfl
  | next =>
    rcases l.next_cases with ⟨-, same⟩ | ⟨x, -, same⟩
    · exact unchanged rfl rfl (by rw [same])
    · exact unchanged rfl rfl (by rw [same])
  | send =>
    rcases l.send_cases with same | ⟨x, -, ⟨-, same⟩ | ⟨-, same⟩⟩
    · exact unchanged rfl rfl (by rw [same])
    · exact unchanged rfl rfl (by rw [same])
    · exact unchanged rfl rfl (by rw [same])
  | message_sender accepts =>
    rcases l.message_sender_cases accepts with same | ⟨x, -, ⟨-, -, -, same⟩ | ⟨-, same⟩⟩
    · exact unchanged rfl rfl (by rw [same])
    · exact ⟨l.talker.queue, [.sent l.link.session x], rfl, List.suffix_rfl, by simp, by rw [same]⟩
    · exact unchanged rfl rfl (by rw [same])
  | pop =>
    rcases l.pop_cases with same | ⟨taken, accepted, -, ⟨-, same⟩ | ⟨removed, queue, -, pop, same⟩⟩
    · exact unchanged rfl rfl (by rw [same])
    · exact unchanged rfl rfl (by rw [same])
    · refine ⟨queue, [.popped removed taken accepted], ?_, ?_, by simp, by rw [same]⟩
      · rcases TalkerQueue.pop_cases pop with ⟨-, rfl⟩ | ⟨-, x, rest, -, rfl⟩ <;> rfl
      · rcases TalkerQueue.pop_cases pop with ⟨-, rfl⟩ | ⟨-, x, rest, contents, rfl⟩
        · exact List.suffix_rfl
        · rw [contents]
          exact List.suffix_cons x rest
  | _ => exact @unchanged l l.talker.queue rfl rfl rfl

end Lane

theorem LaneEvent.push_or_quiet (e : LaneEvent M) :
    (∃ origin msg, e = .push origin msg) ∨ ∀ origin msg, e ≠ .push origin msg := by
  cases e with
  | push origin msg => exact .inl ⟨origin, msg, rfl⟩
  | _ => exact .inr fun _ _ other => by cases other

def State.pending (s : State M) (i : Nat) : Bool :=
  match s.resetTalkers with
  | none => false
  | some j => j ≤ i

def lane (i : Nat) (s : State M) : Option (Lane M) :=
  s.talkers[i]?.map fun t => ⟨t, s.pc.hold i, s.link, s.pending i⟩

def label (i : Nat) (s : State M) : Event M → LaneEvent M
  | .attach _ _ => .other
  | .push j msg => if j = i then .push .pushed msg else .other
  | .destroy j msg => if j = i then .push .withdrawal msg else .other
  | .abandon j => if j = i then .abandon else .other
  | .talk accepts =>
    match s.pc with
    | .empty j =>
      if j = i then
        match s.talkers[i]? with
        | none => .other
        | some t => if t.queue.empty then .other else .empty
      else .other
    | .next j => if j = i then .next else .other
    | .send j _ => if j = i then .send else .other
    | .message_sender j _ => if j = i then .message_sender accepts else .other
    | .pop j _ _ => if j = i then .pop else .other
    | _ => .other
  | .resetTalkers => if s.resetTalkers = some i then .reset else .other
  | .link c =>
    let link := s.link.change s.resetTalkers.isSome c
    if link.session = s.link.session then .link link else .opened

/-- Which event lane `i` sees of a step from `s`, and where the system is when it sees it. -/
inductive Sees (i : Nat) (s : State M) (l : Lane M) : Event M → LaneEvent M → Prop where
  | other (e : Event M) : Sees i s l e .other
  | push (msg : M) : Sees i s l (.push i msg) (.push .pushed msg)
  | destroy (msg : M) : Sees i s l (.destroy i msg) (.push .withdrawal msg)
  | abandon : Sees i s l (.abandon i) .abandon
  | empty (accepts : Bool) (away : l.hold = .away) : Sees i s l (.talk accepts) .empty
  | next (accepts : Bool) (ready : l.hold = .ready) : Sees i s l (.talk accepts) .next
  | send (accepts : Bool) (x : Slip M) (here : s.pc = .send i x) : Sees i s l (.talk accepts) .send
  | message_sender (accepts : Bool) (x : Slip M) (here : s.pc = .message_sender i x)
      (checked : l.hold = .checked x) : Sees i s l (.talk accepts) (.message_sender accepts)
  | pop (accepts : Bool) (x : Slip M) (accepted : Option Nat) (here : s.pc = .pop i x accepted)
      (handled : l.hold = .handled x accepted) : Sees i s l (.talk accepts) .pop
  | reset (current : s.resetTalkers = some i) (pending : l.pending = true) :
      Sees i s l .resetTalkers .reset
  | link (c : Change) (link : Link) (same : link.session = l.link.session)
      (kept : link.phase = .opened → l.link.phase = .opened) : Sees i s l (.link c) (.link link)
  | opened (c : Change) : Sees i s l (.link c) .opened

/-- What the system grants a lane whatever the run: `talk` calls in order, the open handler resets
each queue once, and only `opened` starts a session. -/
def Lane.Guard (l : Lane M) : LaneEvent M → Prop
  | .push origin _ => ∀ n, origin n ≠ .head
  | .empty => l.hold = .away
  | .next => l.hold = .ready
  | .reset => l.pending = true
  | .link link => link.session = l.link.session ∧ (link.phase = .opened → l.link.phase = .opened)
  | _ => True

/-! ### Every step of the system is a step of each lane -/

theorem lane_eq_some {i : Nat} {s : State M} {l : Lane M} (h : lane i s = some l) :
    s.talkers[i]? = some l.talker ∧ s.pc.hold i = l.hold ∧ s.link = l.link ∧
      s.pending i = l.pending := by
  obtain ⟨t, found, rfl⟩ := Option.map_eq_some_iff.mp h
  exact ⟨found, rfl, rfl, rfl⟩

theorem lane_some {i : Nat} {s : State M} {t : Talker M} (found : s.talkers[i]? = some t) :
    lane i s = some ⟨t, s.pc.hold i, s.link, s.pending i⟩ := by
  rw [lane, found]
  rfl

theorem lane_none {i : Nat} {s : State M} (missing : s.talkers[i]? = none) : lane i s = none := by
  rw [lane, missing]
  rfl

/-- A step of `talk` that only moves on, as lane `i` sees it. -/
theorem lane_moves {i : Nat} {s : State M} {pc : Pc M} {e : LaneEvent M}
    (moved : ∀ t, s.talkers[i]? = some t → Lane.step ⟨t, s.pc.hold i, s.link, s.pending i⟩ e =
      ⟨t, pc.hold i, s.link, s.pending i⟩) :
    lane i { s with pc := pc } = (lane i s).map fun l => l.step e := by
  cases found : s.talkers[i]? with
  | none => rw [lane_none found, lane_none (s := { s with pc := pc }) found]; rfl
  | some t =>
    rw [lane_some found, lane_some (s := { s with pc := pc }) found, Option.map_some, moved t found]
    rfl

/-- A step of `talk` that changes a queue. -/
theorem lane_changes {i : Nat} {s : State M} {talkers : List (Talker M)} {pc : Pc M} {e : LaneEvent M}
    (size : talkers.length = s.talkers.length)
    (changed : ∀ t, s.talkers[i]? = some t → ∃ t', talkers[i]? = some t' ∧
      Lane.step ⟨t, s.pc.hold i, s.link, s.pending i⟩ e = ⟨t', pc.hold i, s.link, s.pending i⟩) :
    lane i { s with talkers := talkers, pc := pc } = (lane i s).map fun l => l.step e := by
  cases found : s.talkers[i]? with
  | none =>
    have missing : talkers[i]? = none := by
      rw [List.getElem?_eq_none_iff] at found ⊢
      omega
    rw [lane_none found, lane_none (s := { s with talkers := talkers, pc := pc }) missing]
    rfl
  | some t =>
    obtain ⟨t', found', same⟩ := changed t found
    rw [lane_some found, lane_some (s := { s with talkers := talkers, pc := pc }) found',
      Option.map_some, same]
    rfl

theorem lane_talk (i : Nat) (s : State M) (accepts : Bool) :
    lane i (talk s accepts) = (lane i s).map fun l => l.step (label i s (.talk accepts)) := by
  unfold talk label
  cases h : s.pc with
  | idle => exact lane_moves (by simp [h, Pc.hold, Lane.step])
  | active j =>
    dsimp only
    split <;> exact lane_moves (by simp [h, Pc.hold, Lane.step])
  | empty j =>
    dsimp only
    split
    · rename_i missing
      refine lane_moves fun t found => ?_
      have different : j ≠ i := by rintro rfl; simp [found] at missing
      simp [h, different, Pc.hold, Lane.step]
    · rename_i t here
      split <;> rename_i full
      · refine lane_moves fun t' found => ?_
        by_cases same : j = i
        · subst same; simp [h, here, full, Pc.hold, Lane.step]
        · simp [h, same, Pc.hold, Lane.step]
      · refine lane_moves fun t' found => ?_
        by_cases same : j = i
        · subst same; simp [here, full, Pc.hold, Lane.step]
        · simp [h, same, Pc.hold, Lane.step]
  | next j =>
    dsimp only
    split <;> rename_i front <;> refine lane_moves fun t found => ?_
    · by_cases same : j = i
      · subst same
        simp only [found, Option.bind_some] at front
        simp [front, Pc.hold, Lane.step]
      · simp [h, same, Pc.hold, Lane.step]
    · by_cases same : j = i
      · subst same
        simp only [found, Option.bind_some] at front
        simp [front, Pc.hold, Lane.step]
      · simp [h, same, Pc.hold, Lane.step]
  | send j x =>
    dsimp only
    split <;> rename_i isOpen <;> refine lane_moves fun t found => ?_ <;>
      by_cases same : j = i <;> simp [h, same, isOpen, Pc.hold, Lane.step]
  | message_sender j x =>
    refine lane_changes (by simp) fun t found => ?_
    by_cases same : j = i
    · subst same
      exact ⟨_, by rw [List.getElem?_modify_eq, found]; rfl, by simp [h, Pc.hold, Lane.step]⟩
    · exact ⟨t, by rw [List.getElem?_modify_ne _ _ same, found], by simp [h, same, Pc.hold, Lane.step]⟩
  | pop j x accepted =>
    dsimp only
    split <;> rename_i popped
    · refine lane_moves fun t found => ?_
      by_cases same : j = i
      · subst same
        simp only [found, Option.bind_some] at popped
        simp [h, popped, Pc.hold, Lane.step]
      · simp [h, same, Pc.hold, Lane.step]
    · rename_i t'
      refine lane_changes (by simp) fun t found => ?_
      by_cases same : j = i
      · subst same
        simp only [found, Option.bind_some] at popped
        have inside : j < s.talkers.length := (List.getElem?_eq_some_iff.mp found).1
        exact ⟨t', List.getElem?_set_self inside, by simp [h, popped, Pc.hold, Lane.step]⟩
      · exact ⟨t, by rw [List.getElem?_set_ne same, found], by simp [h, same, Pc.hold, Lane.step]⟩
  | undefined => exact lane_moves (by simp [h, Pc.hold, Lane.step])

theorem lane_resetTalkers (i : Nat) (s : State M) :
    lane i (resetTalkers s) = (lane i s).map fun l => l.step (label i s .resetTalkers) := by
  unfold resetTalkers label
  cases h : s.resetTalkers with
  | none => cases found : s.talkers[i]? <;> simp [lane, found, Lane.step]
  | some j =>
    cases found : s.talkers[i]? with
    | none =>
      have short : s.talkers.length ≤ i := List.getElem?_eq_none_iff.mp found
      dsimp only
      split <;> simp [lane, short]
    | some t =>
      have bound : i < s.talkers.length := (List.getElem?_eq_some_iff.mp found).1
      by_cases same : j = i
      · subst same
        simp only [bound, ↓reduceIte, lane_some found, Option.map_some, Lane.step]
        rw [lane, List.getElem?_modify_eq, found]
        simp [State.pending]
      · have different : ¬ some j = some i := by simpa using same
        simp only [different, ↓reduceIte]
        split
        · rw [lane, List.getElem?_modify_ne _ _ same, found, lane_some found]
          simp only [Option.map_some, Lane.step, State.pending, h]
          congr 2
          exact decide_eq_decide.mpr (by omega)
        · rw [lane, found, lane_some found]
          simp only [Option.map_some, Lane.step, State.pending, h]
          congr 2
          exact (decide_eq_false (by omega)).symm

/-- Producers and the destructor of an endpoint work on one queue. -/
theorem lane_modify (i j : Nat) (s : State M) (f : Talker M → Talker M) {e : LaneEvent M}
    (here : ∀ l : Lane M, l.step e = { l with talker := f l.talker }) :
    lane i { s with talkers := s.talkers.modify j f } =
      (lane i s).map fun l => l.step (if j = i then e else .other) := by
  refine lane_changes (by simp) fun t found => ?_
  by_cases same : j = i
  · subst same
    exact ⟨f t, by rw [List.getElem?_modify_eq, found]; rfl, by simp [here]⟩
  · exact ⟨t, by rw [List.getElem?_modify_ne _ _ same, found], by simp [same, Lane.step]⟩

theorem lane_attach {i : Nat} {s : State M} {queue_size : Int32} {head_msg : M} {l' : Lane M}
    (after : lane i (step s (.attach queue_size head_msg)) = some l') :
    lane i s = some l' ∨ l' = .fresh queue_size head_msg s.link := by
  simp only [step, attach] at after
  split at after
  · rename_i idle done
    obtain ⟨t, found, rfl⟩ := Option.map_eq_some_iff.mp after
    rw [List.getElem?_append] at found
    split at found
    · exact .inl (lane_some found)
    · obtain rfl : t = .new queue_size head_msg := by
        simpa using (List.mem_of_getElem? found)
      exact .inr (by simp [Lane.fresh, State.pending, idle, done, Pc.hold])
  · exact .inl after

/-- A queue that is attached gets the index after those that were. -/
theorem lane_attached {s : State M} {queue_size : Int32} {head_msg : M}
    (grown : s.talkers.length < (step s (.attach queue_size head_msg)).talkers.length) :
    lane s.talkers.length (step s (.attach queue_size head_msg)) =
      some (.fresh queue_size head_msg s.link) := by
  simp only [step, attach] at grown ⊢
  split
  · rename_i idle done
    simp [lane, Lane.fresh, State.pending, idle, done, Pc.hold]
  · rename_i busy
    split at grown
    · rename_i idle done
      exact absurd done (busy idle)
    · exact absurd grown (Nat.lt_irrefl _)

theorem lane_map {i : Nat} {s : State M} {e : Event M}
    (old : ∀ queue_size head_msg, e ≠ .attach queue_size head_msg) :
    lane i (step s e) = (lane i s).map fun l => l.step (label i s e) := by
  cases e with
  | attach queue_size head_msg => exact absurd rfl (old queue_size head_msg)
  | push j msg => exact lane_modify i j s _ (e := .push .pushed msg) fun _ => rfl
  | destroy j msg => exact lane_modify i j s _ (e := .push .withdrawal msg) fun _ => rfl
  | abandon j => exact lane_modify i j s _ (e := .abandon) fun _ => rfl
  | talk accepts => exact lane_talk i s accepts
  | resetTalkers => exact lane_resetTalkers i s
  | link c =>
    cases found : s.talkers[i]? with
    | none => simp [step, lane, found]
    | some t =>
      rcases s.link.change_cases s.resetTalkers.isSome c with ⟨same, -⟩ | ⟨opened, -⟩
      · simp [step, label, lane, found, same, Lane.step, State.pending]
      · simp [step, label, lane, found, opened, Lane.step, State.pending]

/-- A lane after a step of the system is the lane before it moved by its label, or a new queue. -/
theorem lane_step {i : Nat} {s : State M} {e : Event M} {l' : Lane M}
    (after : lane i (step s e) = some l') :
    (∃ l, lane i s = some l ∧ l' = l.step (label i s e)) ∨
    ∃ queue_size head_msg, e = .attach queue_size head_msg ∧ l' = .fresh queue_size head_msg s.link := by
  cases e with
  | attach queue_size head_msg =>
    rcases lane_attach after with old | new
    · exact .inl ⟨l', old, rfl⟩
    · exact .inr ⟨queue_size, head_msg, rfl, new⟩
  | _ =>
    rw [lane_map (by simp)] at after
    obtain ⟨l, here, rfl⟩ := Option.map_eq_some_iff.mp after
    exact .inl ⟨l, here, rfl⟩

/-- A queue is never detached. -/
theorem lane_kept {i : Nat} {s : State M} {l : Lane M} (here : lane i s = some l) (e : Event M) :
    lane i (step s e) = some (l.step (label i s e)) := by
  cases e with
  | attach queue_size head_msg =>
    obtain ⟨found, -, -, -⟩ := lane_eq_some here
    have inside := (List.getElem?_eq_some_iff.mp found).1
    show lane i (attach s (.new queue_size head_msg)) = some l
    unfold attach
    split
    · rw [← here, lane, lane, List.getElem?_append_left inside]
      rfl
    · exact here
  | _ =>
    rw [lane_map (by simp), here]
    rfl

theorem label_sees {i : Nat} {s : State M} {l : Lane M} (here : lane i s = some l) (e : Event M) :
    Sees i s l e (label i s e) := by
  obtain ⟨found, hold, link, pending⟩ := lane_eq_some here
  cases e with
  | attach queue_size head_msg => exact .other _
  | push j msg =>
    simp only [label]
    split
    · rename_i same
      exact same ▸ .push msg
    · exact .other _
  | destroy j msg =>
    simp only [label]
    split
    · rename_i same
      exact same ▸ .destroy msg
    · exact .other _
  | abandon j =>
    simp only [label]
    split
    · rename_i same
      exact same ▸ .abandon
    · exact .other _
  | talk accepts =>
    simp only [label]
    cases pc : s.pc with
    | empty j =>
      simp only [found]
      split
      · split
        · exact .other _
        · exact .empty accepts (by rw [← hold, pc]; rfl)
      · exact .other _
    | next j =>
      dsimp only
      split
      · rename_i same
        exact .next accepts (by rw [← hold, pc, Pc.hold, if_pos same])
      · exact .other _
    | send j x =>
      dsimp only
      split
      · rename_i same
        exact .send accepts x (same ▸ pc)
      · exact .other _
    | message_sender j x =>
      dsimp only
      split
      · rename_i same
        exact .message_sender accepts x (same ▸ pc) (by rw [← hold, pc, Pc.hold, if_pos same])
      · exact .other _
    | pop j x accepted =>
      dsimp only
      split
      · rename_i same
        exact .pop accepts x accepted (same ▸ pc) (by rw [← hold, pc, Pc.hold, if_pos same])
      · exact .other _
    | _ => exact .other _
  | resetTalkers =>
    simp only [label]
    split
    · rename_i current
      exact .reset current (by simp [← pending, State.pending, current])
    · exact .other _
  | link c =>
    simp only [label]
    split
    · rename_i same
      refine .link c _ (by rw [same, link]) fun isOpen => ?_
      rcases s.link.change_cases s.resetTalkers.isSome c with ⟨-, kept⟩ | ⟨opened, -⟩
      · rw [← link]
        exact kept isOpen
      · rw [opened] at same
        simp at same
    · exact .opened c

theorem lane_guard {i : Nat} {s : State M} {l : Lane M} (here : lane i s = some l) (e : Event M) :
    l.Guard (label i s e) := by
  have sees := label_sees here e
  generalize label i s e = seen at sees
  cases sees with
  | push msg => intro n isHead; cases isHead
  | destroy msg => intro n isHead; cases isHead
  | empty accepts away => exact away
  | next accepts ready => exact ready
  | reset current pending => exact pending
  | link c link same kept => exact ⟨same, kept⟩
  | _ => trivial

/-- An invariant that holds of every new queue, and that every allowed step of a lane keeps, holds
of every lane of every run whose steps are allowed. -/
theorem lane_invariant {Inv : Lane M → Prop} {ok : State M → Event M → Prop}
    (new : ∀ queue_size head_msg link, Inv (.fresh queue_size head_msg link))
    (keep : ∀ i s l e, lane i s = some l → Inv l → l.Guard (label i s e) → ok s e →
      Inv (l.step (label i s e)))
    {phase : Phase} {events : List (Event M)}
    (allowed : Machine.Along step ok (start phase) events) :
    ∀ i l, lane i (run (start phase) events) = some l → Inv l := by
  refine @Machine.invariant_along (State M) (Event M) step
    (fun s => ∀ i l, lane i s = some l → Inv l) ok ?_ _ _ ?_ allowed
  · intro s e before meets i l' after
    rcases lane_step after with ⟨l, here, rfl⟩ | ⟨queue_size, head_msg, -, rfl⟩
    · exact keep i s l e here (before i l here) (lane_guard here e) meets
    · exact new queue_size head_msg s.link
  · intro i l none
    simp [lane, start] at none

theorem lane_of_mem {s : State M} {t : Talker M} (member : t ∈ s.talkers) :
    ∃ i l, lane i s = some l ∧ l.talker = t := by
  obtain ⟨i, inside, rfl⟩ := List.mem_iff_getElem.mp member
  exact ⟨i, _, by rw [lane, List.getElem?_eq_getElem inside]; rfl, rfl⟩

end Rosbridge.Talk
