import Rosbridge.Endpoint
import Rosbridge.Shutdown
import Rosbridge.Talk.Passing

/-!
# What a shutdown still sends

The messages that the talker queues hold when `~RosbridgeClient` starts are sent by `talk` alone, one
message of each queue in a pass. The destructor does not wait for a pass to begin: it clears `_execute`
and joins the timer thread wherever that is.
-/

namespace Rosbridge.Shutdown

open Talk

variable {M : Type}

/-- The connection is open and stays open, sends succeed, and nobody destroys the client. -/
def Publishes : Event M → Prop
  | .client (.link _) => False
  | .timer accepts => accepts = true
  | .destructor => False
  | _ => True

def Leaves : Event M → Prop
  | .client _ => False
  | .attach _ _ => False
  | .timer accepts => accepts = true
  | _ => True

/-- Every message that a talker queue held in the first state has been sent in the second. -/
def Flushed (s t : State M) : Prop :=
  ∀ (i : Nat) (talker : Talker M), s.system.talkers[i]? = some talker → ∀ x ∈ talker.queue.contents,
    ∃ talker' : Talker M, t.system.talkers[i]? = some talker' ∧ ∃ session, .sent session x ∈ talker'.log

/-- `talk` pops from each queue the message that it has read there, and so many calls of `talk` are enough
for what is still to be sent, together with the call that is under way. -/
def Suffice (calls : Nat) (s : State M) : Prop :=
  ∀ (i : Nat) (talker : Talker M), s.system.talkers[i]? = some talker →
    (∀ x y, (s.system.pc.hold i).taken = some x → talker.queue.next = some y → y = x) ∧
      Talk.unsent talker (s.system.pc.hold i) ≤ calls + s.system.pc.owes i

def State.calls (s : State M) : Nat := s.timer.begun

/-! ### The timer thread in the client -/

structure Serving (s : State M) : Prop where
  sound : Sound s
  steady : Steady s.system
  passing : s.thread = .func ↔ s.system.pc ≠ .idle

/-- The next step of the timer thread, but for what it does in `talk`. -/
theorem thread_works {s : State M} (sound : Sound s) :
    (State.thread { s with timer := Timer.step s.timer (.thread 0) } = .func ↔ s.thread = .call) ∧
      State.calls { s with timer := Timer.step s.timer (.thread 0) } =
        s.calls + if s.thread = .call then 1 else 0 := by
  rw [Timer.step_thread sound.timer.running]
  cases found : s.timer.threads[0]? with
  | none =>
    have same : s.timer.work 0 = s.timer := by rw [Timer.State.work, found]
    simp [same, State.thread, found]
  | some t =>
    obtain ⟨pc, next, func, begun⟩ := Timer.work_next found
    have thread : s.thread = t.pc := by rw [State.thread, found]
    have thread' : State.thread { s with timer := s.timer.work 0 } = pc := by rw [State.thread, next]
    rw [thread, thread']
    exact ⟨func, begun⟩

inductive Serves (s s' : State M) : Prop where
  | rests (system : s'.system = s.system) (calls : s'.calls = s.calls)
      (thread : s'.thread = .func ↔ s.thread = .func)
  | talks (system : s'.system = Talk.talk s.system true)
      (calls : s'.calls = s.calls + if returns s.system.pc then 1 else 0)
      (thread : s'.thread = .func ↔ s'.system.pc ≠ .idle)

theorem returns_iff {pc : Talk.Pc M} : returns pc = true ↔ pc = .idle := by
  cases pc <;> simp [returns]

theorem serves_timer {s : State M} (h : Serving s) : Serves s (timer s true) := by
  obtain ⟨begins, calls⟩ := thread_works h.sound
  have passing := h.passing
  unfold timer
  split
  · rename_i call
    rw [call] at begins calls passing
    have idle : s.system.pc = .idle := by simpa using passing
    refine .talks rfl (by rw [idle]; exact calls) (iff_of_true (begins.mpr rfl) ?_)
    simp [Talk.talk, idle]
  · rename_i func
    rw [func] at begins calls passing
    have busy : returns s.system.pc ≠ true := fun idle => passing.mp rfl (returns_iff.mp idle)
    dsimp only
    split
    · rename_i idle
      refine .talks rfl ?_ (iff_of_false (fun func => by cases begins.mp func) ?_)
      · rw [if_neg busy]
        exact calls
      · exact not_not.mpr (returns_iff.mp idle)
    · rename_i passes
      refine .talks rfl ?_ (iff_of_true func fun idle => passes (returns_iff.mpr idle))
      rw [if_neg busy]
      rfl
  · rename_i call func
    refine .rests rfl ?_ (iff_of_false (fun now => call (begins.mp now)) func)
    rw [if_neg call] at calls
    exact calls

theorem serves_destructor (s : State M) : Serves s (destructor s) := by
  have owner {e : Timer.Event Unit} (other : ∀ k, e ≠ .thread k) :
      Serves s { s with timer := Timer.step s.timer e } := by
    refine .rests rfl (Timer.begun_step other) ?_
    rcases thread_owner other with same | ⟨done, load⟩
    · rw [same]
    · rw [done, load]
      simp
  unfold destructor
  split
  · exact .rests rfl rfl Iff.rfl
  · exact .rests rfl rfl Iff.rfl
  · exact .rests rfl rfl Iff.rfl
  · exact .rests rfl rfl Iff.rfl
  · exact .rests rfl rfl Iff.rfl
  · split
    · exact .rests rfl rfl Iff.rfl
    · exact owner nofun
    · exact owner nofun
  · exact .rests rfl rfl Iff.rfl
  · exact .rests rfl rfl Iff.rfl

theorem serves_act {picojson : Picojson} {s : State M} (h : Serving s) {e : Event M} (leaves : Leaves e) :
    Serves s (act picojson s e) := by
  cases e with
  | client e => exact leaves.elim
  | attach q topic => exact leaves.elim
  | timer accepts =>
    obtain rfl : accepts = true := leaves
    exact serves_timer h
  | destructor => exact serves_destructor s
  | message data =>
    unfold act message
    dsimp only
    split <;> exact .rests rfl rfl Iff.rfl
  | listen =>
    unfold act listen
    dsimp only
    split
    · exact .rests rfl rfl Iff.rfl
    · split <;> exact .rests rfl rfl Iff.rfl
    · exact .rests rfl rfl Iff.rfl
    · exact .rests rfl rfl Iff.rfl
    · exact .rests rfl rfl Iff.rfl

theorem serves_step {picojson : Picojson} {s : State M} (h : Serving s) {e : Event M} (leaves : Leaves e) :
    Serves s (step picojson s e) := by
  unfold step
  split
  · cases @serves_act M picojson s h e leaves with
    | rests system calls thread => exact .rests system calls thread
    | talks system calls thread => exact .talks system calls thread
  · exact .rests rfl rfl Iff.rfl

theorem serving_step {picojson : Picojson} {s : State M} (h : Serving s) {e : Event M} (leaves : Leaves e) :
    Serving (step picojson s e) := by
  have sound : Sound (step picojson s e) := sound_step h.sound e
  cases @serves_step M picojson s h e leaves with
  | rests system calls thread => exact ⟨sound, system ▸ h.steady, by rw [thread, system]; exact h.passing⟩
  | talks system calls thread => exact ⟨sound, system ▸ steady_talk h.steady, thread⟩

/-! ### Before the destructor -/

theorem Serving.step {picojson : Picojson} {s : State M} (h : Serving s) {e : Event M}
    (steady : Steady (act picojson s e).system)
    (passing : (act picojson s e).thread = .func ↔ (act picojson s e).system.pc ≠ .idle) :
    Serving (Shutdown.step picojson s e) := by
  have sound : Sound (Shutdown.step picojson s e) := sound_step h.sound e
  unfold Shutdown.step at sound ⊢
  split at sound
  · rename_i ordered
    rw [if_pos ordered]
    exact ⟨sound, steady, passing⟩
  · rename_i broken
    rw [if_neg broken]
    exact h

theorem serving_client {picojson : Picojson} {s : State M} (h : Serving s) {own : Talk.Event M}
    (publishes : Publishes (.client own)) : Serving (step picojson s (.client own)) := by
  have works (calm : Calm own ∨ own = .resetTalkers) (pc : (Talk.step s.system own).pc = s.system.pc)
      (acts : act picojson s (.client own) = { s with system := Talk.step s.system own }) :
      Serving (step picojson s (.client own)) := by
    apply h.step
    · rw [acts]
      exact steady_step h.steady calm
    · rw [acts]
      exact h.passing.trans (by rw [pc])
  cases own with
  | link c => exact publishes.elim
  | talk accepts => exact h.step h.steady h.passing
  | attach queue_size head_msg =>
    by_cases early : s.stage = .on_connection
    · refine works (.inl trivial) ?_ (if_pos early)
      show (Talk.attach s.system (.new queue_size head_msg)).pc = s.system.pc
      unfold Talk.attach
      split <;> rfl
    · have idle : act picojson s (.client (.attach queue_size head_msg)) = s := if_neg early
      apply h.step
      · rw [idle]
        exact h.steady
      · rw [idle]
        exact h.passing
  | resetTalkers =>
    refine works (.inr rfl) ?_ rfl
    show (Talk.resetTalkers s.system).pc = s.system.pc
    rw [Talk.resetTalkers, h.steady.calm]
  | push i msg => exact works (.inl trivial) rfl rfl
  | destroy i msg => exact works (.inl trivial) rfl rfl
  | abandon i => exact works (.inl trivial) rfl rfl

theorem serving_publishes {picojson : Picojson} {s : State M} (h : Serving s) {e : Event M}
    (publishes : Publishes e) : Serving (step picojson s e) := by
  cases e with
  | client own => exact serving_client h publishes
  | timer accepts => exact serving_step h publishes
  | message data => exact serving_step h trivial
  | listen => exact serving_step h trivial
  | destructor => exact publishes.elim
  | attach q topic =>
    have same : (attach s q topic).system = s.system ∧ (attach s q topic).timer = s.timer := by
      unfold attach
      split <;> exact ⟨rfl, rfl⟩
    apply h.step
    · exact same.1 ▸ h.steady
    · show (attach s q topic).thread = .func ↔ (attach s q topic).system.pc ≠ .idle
      rw [State.thread, same.1, same.2]
      exact h.passing

theorem serving_start : Serving (start .opened : State M) where
  sound := sound_start .opened
  steady := steady_start
  passing := by
    have load : (start .opened : State M).thread = .load := rfl
    rw [load]
    exact iff_of_false nofun (not_not.mpr rfl)

theorem serving_run {picojson : Picojson} {before : List (Event M)} (published : ∀ e ∈ before, Publishes e) :
    Serving (run picojson (start .opened) before) := by
  have keep : ∀ (s : State M) (e : Event M), Serving s → Publishes e → Serving (step picojson s e) :=
    fun s e h publishes => serving_publishes h publishes
  exact Machine.invariant_along keep serving_start (Machine.along_of_forall _ published)

/-! ### While the destructor runs -/

/-- What the steps of `talk` keep of a queue holds when the destructor has returned. -/
theorem leaves_run {picojson : Picojson} {i : Nat} {Inv : Talker M → Talk.Pc M → Nat → Prop}
    (keep : ∀ t pc pc' t' n, Unsent t (pc.hold i) → Inv t pc n → Passes i t pc pc' t' →
      Inv t' pc' (n + if returns pc then 1 else 0))
    {s : State M} (serving : Serving s) {t : Talker M} (found : s.system.talkers[i]? = some t)
    (initially : Inv t s.system.pc s.calls) {events : List (Event M)} (leaves : ∀ e ∈ events, Leaves e) :
    Serving (run picojson s events) ∧
      ∃ t', (run picojson s events).system.talkers[i]? = some t' ∧
        Inv t' (run picojson s events).system.pc (run picojson s events).calls := by
  have keeps : ∀ (s : State M) (e : Event M), (Serving s ∧ ∃ t, s.system.talkers[i]? = some t ∧
      Inv t s.system.pc s.calls) → Leaves e → Serving (step picojson s e) ∧
        ∃ t, (step picojson s e).system.talkers[i]? = some t ∧
          Inv t (step picojson s e).system.pc (step picojson s e).calls := by
    rintro s e ⟨serving, t, found, holds⟩ leaves
    refine ⟨serving_step serving leaves, ?_⟩
    cases @serves_step M picojson s serving e leaves with
    | rests system calls thread =>
      rw [system, calls]
      exact ⟨t, found, holds⟩
    | talks system calls thread =>
      obtain ⟨t', there, passes⟩ := talk_passes serving.steady.opened found
      rw [system, calls]
      exact ⟨t', there, keep _ _ _ _ _ (serving.steady.unsent i t found) holds passes⟩
  exact Machine.invariant_along keeps ⟨serving, t, found, initially⟩ (Machine.along_of_forall _ leaves)

theorem idle_of_returned {s : State M} (h : Serving s) (returned : s.stage = .returned) :
    s.system.pc = .idle := by
  have done : s.thread = .done := thread_done h.sound.timer (h.sound.joined (.inr returned))
  by_contra busy
  have func := h.passing.mpr busy
  rw [done] at func
  cases func

/-- So many calls of `talk` later, every one of them has sent a message of the queue, or there is none. -/
structure Counted (i left owed calls : Nat) (t : Talker M) (pc : Talk.Pc M) (n : Nat) : Prop where
  later : calls ≤ n
  counts : pc ≠ .undefined →
    ∃ k, k + pc.owes i + calls = n + owed ∧ Talk.unsent t (pc.hold i) = left - k

theorem counted_passes {i left owed calls n : Nat} {t t' : Talker M} {pc pc' : Talk.Pc M}
    (h : Counted i left owed calls t pc n) (passes : Passes i t pc pc' t') :
    Counted i left owed calls t' pc' (n + if returns pc then 1 else 0) := by
  obtain ⟨later, counts⟩ := h
  refine ⟨by omega, fun defined => ?_⟩
  have alive : pc ≠ .undefined := by
    rintro rfl
    cases passes
    exact defined rfl
  obtain ⟨k, total, rest⟩ := counts alive
  by_cases idle : pc = .idle
  · subst idle
    cases passes with
    | begins => exact ⟨k, by simp [Pc.owes, returns] at total ⊢; omega, rest⟩
    | stuck => exact absurd rfl defined
  · have busy : ¬ returns pc = true := fun same => idle (returns_iff.mp same)
    rw [if_neg busy]
    rcases unsent_turn passes idle defined with ⟨owes, same⟩ | ⟨owes, same⟩
    · exact ⟨k, by omega, same.trans rest⟩
    · exact ⟨k + 1, by omega, by rw [same, rest]; omega⟩

/-- What is left of a queue when the destructor has returned, if `talk` pops what it sends. -/
theorem drains {picojson : Picojson} {s : State M} (serving : Serving s) {i : Nat} {t : Talker M}
    (found : s.system.talkers[i]? = some t)
    (front : ∀ x y, (s.system.pc.hold i).taken = some x → t.queue.next = some y → y = x)
    {events : List (Event M)} (leaves : ∀ e ∈ events, Leaves e)
    (idle : (run picojson s events).system.pc = .idle) :
    ∃ t', (run picojson s events).system.talkers[i]? = some t' ∧ Matched t.queue.contents t' .away ∧
      t'.queue.contents.length = Talk.unsent t (s.system.pc.hold i) -
        ((run picojson s events).calls - s.calls + s.system.pc.owes i) := by
  let left := Talk.unsent t (s.system.pc.hold i)
  let owed := s.system.pc.owes i
  obtain ⟨-, t', there, matched, counted⟩ := @leaves_run M picojson i
    (fun u pc n => Matched t.queue.contents u (pc.hold i) ∧ Counted i left owed s.calls u pc n)
    (fun u pc pc' u' n unsent holds passes =>
      ⟨matched_passes unsent holds.1 passes, counted_passes holds.2 passes⟩)
    s serving t found ⟨⟨front, 0, rfl, by simp⟩, Nat.le_refl _, fun _ => ⟨0, by omega, rfl⟩⟩ events leaves
  rw [idle] at matched counted
  obtain ⟨k, total, rest⟩ := counted.counts nofun
  refine ⟨t', there, matched, ?_⟩
  have later := counted.later
  have enough : k = (run picojson s events).calls - s.calls + s.system.pc.owes i := by
    simp only [Pc.owes] at total
    omega
  rw [← enough]
  exact rest

/-- A message that another one is popped for is not sent any more. -/
theorem lost_run {picojson : Picojson} {s : State M} (serving : Serving s) {i : Nat} {t : Talker M}
    (found : s.system.talkers[i]? = some t) {x y : Slip M}
    (taken : (s.system.pc.hold i).taken = some x) (next : t.queue.next = some y) (other : y ≠ x)
    {events : List (Event M)} (leaves : ∀ e ∈ events, Leaves e) :
    ∃ t', (run picojson s events).system.talkers[i]? = some t' ∧ ∀ session, .sent session y ∉ t'.log := by
  have unsent := serving.steady.unsent i t found
  have member : y ∈ t.queue.contents := by
    rw [TalkerQueue.next_eq] at next
    exact List.mem_of_head? next
  have lost : Lost y t (s.system.pc.hold i) := by
    refine ⟨fun session sent => ?_, fun same => ?_, .inr ⟨by rw [taken]; simp, next⟩⟩
    · obtain ⟨accepted, handled⟩ := unsent.unsent y member session sent
      rw [handled] at taken
      exact other (Option.some.inj taken)
    · exact other (Option.some.inj (same.symm.trans taken))
  obtain ⟨-, t', there, lost⟩ := @leaves_run M picojson i (fun u pc _ => Lost y u (pc.hold i))
    (fun u pc pc' u' n unsent lost passes => lost_passes unsent lost passes) s serving t found lost events leaves
  exact ⟨t', there, lost.never⟩

theorem serving_leaves {picojson : Picojson} {s : State M} (serving : Serving s) {events : List (Event M)}
    (leaves : ∀ e ∈ events, Leaves e) : Serving (run picojson s events) := by
  have keep : ∀ (s : State M) (e : Event M), Serving s → Leaves e → Serving (step picojson s e) :=
    fun s e h leaves => serving_step h leaves
  exact Machine.invariant_along keep serving (Machine.along_of_forall _ leaves)

theorem flushed_of_suffice {picojson : Picojson} {s : State M} (serving : Serving s)
    {events : List (Event M)} (leaves : ∀ e ∈ events, Leaves e)
    (idle : (run picojson s events).system.pc = .idle)
    (suffice : Suffice ((run picojson s events).calls - s.calls) s) :
    Flushed s (run picojson s events) := by
  intro i talker found x member
  obtain ⟨front, enough⟩ := suffice i talker found
  obtain ⟨talker', there, matched, rest⟩ := drains serving found front leaves idle
  obtain ⟨m, held, all⟩ := matched.sent
  have drained : talker.queue.contents.drop m = [] := by
    rw [← held]
    exact List.eq_nil_of_length_eq_zero (rest.trans (Nat.sub_eq_zero_of_le enough))
  have whole : talker.queue.contents.take m = talker.queue.contents := by
    rw [← List.append_nil (List.take m _), ← drained, List.take_append_drop]
  rw [← whole] at member
  exact ⟨talker', there, all x member⟩

theorem suffice_of_flushed {picojson : Picojson} {s : State M} (serving : Serving s)
    {events : List (Event M)} (leaves : ∀ e ∈ events, Leaves e)
    (idle : (run picojson s events).system.pc = .idle)
    (flushed : Flushed s (run picojson s events)) :
    Suffice ((run picojson s events).calls - s.calls) s := by
  intro i talker found
  have front : ∀ x y, (s.system.pc.hold i).taken = some x → talker.queue.next = some y → y = x := by
    intro x y taken next
    by_contra other
    obtain ⟨talker', there, never⟩ := @lost_run M picojson s serving i talker found x y taken next other _ leaves
    rw [TalkerQueue.next_eq] at next
    obtain ⟨again, here, session, sent⟩ := flushed i talker found y (List.mem_of_head? next)
    obtain rfl : again = talker' := Option.some.inj (here.symm.trans there)
    exact never session sent
  refine ⟨front, ?_⟩
  obtain ⟨talker', there, matched, rest⟩ := drains serving found front leaves idle
  by_contra many
  -- What is left was held from the start, and it has not been sent.
  have some_left : 0 < talker'.queue.contents.length := by
    rw [rest]
    omega
  obtain ⟨y, member⟩ := List.exists_mem_of_length_pos some_left
  obtain ⟨m, held, -⟩ := matched.sent
  have first : y ∈ talker.queue.contents := by
    rw [held] at member
    exact List.mem_of_mem_drop member
  obtain ⟨again, here, session, sent⟩ := flushed i talker found y first
  obtain rfl : again = talker' := Option.some.inj (here.symm.trans there)
  have unsent := (serving_leaves serving leaves).steady.unsent i again there
  obtain ⟨accepted, handled⟩ := unsent.unsent y member session sent
  rw [idle] at handled
  cases handled

/-- When the client is destroyed while its connection is open, what the talker queues still hold is sent in
exactly the runs in which enough calls of `talk` begin before the timer thread is joined. -/
theorem shutdown_flushes_iff (picojson : Picojson) (before after : List (Event M))
    (published : ∀ e ∈ before, Publishes e) (left : ∀ e ∈ after, Leaves e)
    (returned : (run picojson (run picojson (start .opened) before) (.destructor :: after)).stage = .returned) :
    let s := run picojson (start .opened) before
    let t := run picojson s (.destructor :: after)
    Flushed s t ↔ Suffice (t.calls - s.calls) s := by
  intro s t
  have serving : Serving s := serving_run published
  have leaves : ∀ e ∈ Event.destructor :: after, Leaves e := by
    intro e member
    rcases List.mem_cons.mp member with rfl | later
    · trivial
    · exact left e later
  have idle : t.system.pc = .idle := idle_of_returned (serving_leaves serving leaves) returned
  exact ⟨suffice_of_flushed serving leaves idle, flushed_of_suffice serving leaves idle⟩

/-- When no call of `talk` is under way, one call is needed for each message of the longest queue. -/
theorem suffice_of_idle {s : State M} {calls : Nat} (idle : returns s.system.pc = true)
    (fits : ∀ talker ∈ s.system.talkers, talker.queue.contents.length ≤ calls) : Suffice calls s := by
  intro i talker found
  rw [returns_iff.mp idle]
  exact ⟨nofun, fits talker (List.mem_of_getElem? found)⟩

/-! ### Concrete runs -/

/-- A queue holds a message in the first state that has not been sent in the second. -/
def withheld (i : Nat) (s t : State M) : Bool :=
  match s.system.talkers[i]?, t.system.talkers[i]? with
  | some talker, some talker' => talker.queue.contents.any fun x => talker'.log.all fun entry =>
      match entry with
      | .sent _ y => y.origin ≠ x.origin
      | _ => true
  | _, _ => false

theorem not_flushed_of_withheld {s t : State M} (i : Nat) (kept : withheld i s t = true) : ¬ Flushed s t := by
  intro flushed
  unfold withheld at kept
  split at kept
  · rename_i talker talker' found there
    obtain ⟨x, member, kept⟩ := List.any_eq_true.mp kept
    obtain ⟨again, here, session, sent⟩ := flushed i talker found x member
    obtain rfl : again = talker' := Option.some.inj (here.symm.trans there)
    simpa using List.all_eq_true.mp kept _ sent
  · cases kept

/-- One message is published, and the publisher is destroyed. -/
def published : List (Event Serializer) :=
  let publisher : Publisher :=
    { topic := ascii "/publisher", type := ascii "std_msgs/String", queue_size := 10 }
  clients (publisher.attach (ascii "1") :: publisher.publish 0 .empty (ascii "2") ::
    publisher.destroy 0 (ascii "3"))

/-- The timer thread looks at `_execute` after it is cleared. -/
def hurried : List (Event Serializer) := destroys 7 ++ .timer true :: destroys 4

theorem shutdown_withholds :
    let s := run picojson.package (start .opened) published
    let t := run picojson.package s (.destructor :: hurried)
    (∀ e ∈ published, Publishes e) ∧ (∀ e ∈ hurried, Leaves e) ∧ t.stage = .returned ∧ ¬ Flushed s t := by
  refine ⟨?_, ?_, by decide +kernel, not_flushed_of_withheld 0 (by decide +kernel)⟩
  · simp [published, clients, Publishes, Publisher.attach, Publisher.publish, Publisher.destroy]
  · simp [hurried, destroys, Leaves]

/-- The timer thread calls `talk` three times before it is joined. -/
def unhurried : List (Event Serializer) := List.replicate 30 (.timer true) ++ hurried

theorem shutdown_flushes_unhurried :
    let s := run picojson.package (start .opened) published
    Flushed s (run picojson.package s (.destructor :: unhurried)) := by
  have calm : ∀ e ∈ published, Publishes e := by
    simp [published, clients, Publishes, Publisher.attach, Publisher.publish, Publisher.destroy]
  have left : ∀ e ∈ unhurried, Leaves e := by
    simp [unhurried, hurried, destroys, Leaves]
  refine (shutdown_flushes_iff picojson.package published unhurried calm left (by decide +kernel)).mpr ?_
  exact suffice_of_idle (by decide +kernel) (by decide +kernel)

end Rosbridge.Shutdown
