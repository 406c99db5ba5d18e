import Rosbridge.Flush
import Rosbridge.Talk.Pass

/-!
# The destructor of the client returns

`~RosbridgeClient` waits in one place, where `talker_timer` joins its thread. The thread may be anywhere in a
pass then, and comes to the end of it before it looks at `_execute`.
-/

namespace Rosbridge.Shutdown

open Talk

variable {M : Type}

def Event.isDestructor : Event M → Bool
  | .destructor => true
  | _ => false

def Event.isTimer : Event M → Bool
  | .timer _ => true
  | _ => false

def Owns : Stage → Timer.Pc Unit → Prop
  | .talker_timer, owner => owner = .idle ∨ owner = .destructor ∨ owner = .stop .destructor ∨
      owner = .join .destructor ∨ owner = .members ∨ owner = .destroyed
  | .connection, owner => owner = .destroyed
  | .returned, owner => owner = .destroyed
  | _, owner => owner = .idle

/-- How many steps the destructor has still to take. -/
def Stage.ahead : Stage → Timer.Pc Unit → Nat
  | .on_connection, _ => 12
  | .on_disconnection, _ => 11
  | .on_message_received, _ => 10
  | .listeners, _ => 9
  | .talkers, _ => 8
  | .talker_timer, .idle => 7
  | .talker_timer, .destructor => 6
  | .talker_timer, .stop _ => 5
  | .talker_timer, .join _ => 4
  | .talker_timer, .members => 3
  | .talker_timer, _ => 2
  | .connection, _ => 1
  | .returned, _ => 0

/-- At most so many steps of the timer thread until it ends, once `_execute` is cleared. -/
def waits (thread : Timer.ThreadPc) (system : Talk.State M) : Nat :=
  match thread with
  | .done => 0
  | .load => 1
  | .sleep => 2
  | .func => system.left + 2
  | .call => 6 * system.talkers.length + 5

namespace State

def ahead (s : State M) : Nat := s.stage.ahead s.timer.owner

def waits (s : State M) : Nat := Shutdown.waits s.thread s.system

end State

structure Ending (s : State M) : Prop where
  sound : Sound s
  inside : Inside s.system
  passing : s.thread = .func ↔ s.system.pc ≠ .idle
  owns : Owns s.stage s.timer.owner
  single : s.timer.threads.length = 1
  cleared : s.ahead ≤ 4 → s.timer.execute = false

/-! ### The destructor -/

inductive Proceeds (s s' : State M) : Prop where
  | on (system : s'.system = s.system) (threads : s'.timer.threads = s.timer.threads)
      (owns : Owns s'.stage s'.timer.owner) (less : s'.ahead ≤ s.ahead - 1)
      (cleared : s'.ahead ≤ 4 → s'.timer.execute = false)
  | waits (same : s' = s) (joins : s.ahead ≤ 4) (busy : s.thread ≠ .done)

theorem isDone_of_thread {s : State M} (h : Ending s) {k : Nat} (thd : s.timer.thd = some k)
    (owner : s.timer.owner = .join .destructor) (done : s.thread = .done) : s.timer.isDone k = true := by
  have phase := h.sound.timer.phase
  rw [owner] at phase
  rcases phase with quiet | ⟨j, held⟩
  · rw [quiet.thd] at thd
    cases thd
  · obtain rfl : j = k := Option.some.inj (held.thd.symm.trans thd)
    have only : j = 0 := by
      have length := held.length
      rw [h.single] at length
      omega
    subst only
    unfold State.thread at done
    unfold Timer.State.isDone
    cases found : s.timer.threads[0]? with
    | none => rfl
    | some t =>
      rw [found] at done
      simpa using done

theorem proceeds_early {s : State M} (owns : s.timer.owner = .idle) {stage : Stage}
    (less : stage.ahead .idle ≤ s.stage.ahead .idle - 1) (early : ¬ stage.ahead .idle ≤ 4)
    (fits : Owns stage .idle) : Proceeds s { s with stage := stage } := by
  refine .on rfl rfl ?_ ?_ ?_
  · show Owns stage s.timer.owner
    rw [owns]
    exact fits
  · show stage.ahead s.timer.owner ≤ s.stage.ahead s.timer.owner - 1
    rw [owns]
    exact less
  · show stage.ahead s.timer.owner ≤ 4 → _
    rw [owns]
    exact fun late => absurd late early

theorem proceeds_late {s s' : State M} (h : Ending s) (late : s.ahead ≤ 4)
    (system : s'.system = s.system) (threads : s'.timer.threads = s.timer.threads)
    (owns : Owns s'.stage s'.timer.owner) (less : s'.ahead ≤ s.ahead - 1)
    (execute : s'.timer.execute = s.timer.execute) : Proceeds s s' :=
  .on system threads owns less fun _ => execute.trans (h.cleared late)

theorem proceeds_destructor {s : State M} (h : Ending s) : Proceeds s (destructor s) := by
  have owns := h.owns
  unfold destructor
  cases stage : s.stage with
  | talker_timer =>
    rw [stage] at owns
    rcases owns with owner | owner | owner | owner | owner | owner
    · simp only [owner, Timer.step]
      refine .on rfl rfl ?_ ?_ ?_
      · simp [Owns]
      · simp [State.ahead, Stage.ahead, stage, owner]
      · simp [State.ahead, Stage.ahead]
    · simp only [owner, Timer.step, Timer.State.own]
      split
      · refine .on rfl rfl ?_ ?_ ?_
        · simp [Owns]
        · simp [State.ahead, Stage.ahead, stage, owner]
        · simp [State.ahead, Stage.ahead]
      · rename_i cleared
        refine .on rfl rfl ?_ ?_ fun _ => by simpa using cleared
        · simp [Owns]
        · simp [State.ahead, Stage.ahead, stage, owner]
    · simp only [owner, Timer.step, Timer.State.own]
      refine .on rfl rfl ?_ ?_ fun _ => rfl
      · simp [Owns]
      · simp [State.ahead, Stage.ahead, stage, owner]
    · have late : s.ahead ≤ 4 := by simp [State.ahead, Stage.ahead, stage, owner]
      simp only [owner, Timer.step, Timer.State.own]
      have joined : Proceeds s { s with timer := s.timer.stopped .destructor } := by
        refine proceeds_late h late rfl rfl ?_ ?_ rfl
        · simp [Owns, stage, Timer.State.stopped, Timer.Caller.resume]
        · simp [State.ahead, Stage.ahead, stage, owner, Timer.State.stopped, Timer.Caller.resume]
      rw [stage] at joined
      split
      · exact joined
      · rename_i k thd
        split
        · exact joined
        · rename_i busy
          exact .waits (by rw [← stage]) late fun done => busy (isDone_of_thread h thd owner done)
    · have late : s.ahead ≤ 4 := by simp [State.ahead, Stage.ahead, stage, owner]
      have phase := h.sound.timer.phase
      rw [owner] at phase
      have none : ¬ s.timer.thd.isSome = true := by simp [show s.timer.thd = none from phase.thd]
      simp only [owner, Timer.step, Timer.State.own, if_neg none]
      refine proceeds_late h late rfl rfl ?_ ?_ rfl
      · simp [Owns]
      · simp [State.ahead, Stage.ahead, stage, owner]
    · have late : s.ahead ≤ 4 := by simp [State.ahead, Stage.ahead, stage, owner]
      simp only [owner]
      refine proceeds_late h late rfl rfl owner ?_ rfl
      simp [State.ahead, Stage.ahead, stage, owner]
  | connection =>
    have late : s.ahead ≤ 4 := by simp [State.ahead, Stage.ahead, stage]
    rw [stage] at owns
    refine proceeds_late h late rfl rfl owns ?_ rfl
    simp [State.ahead, Stage.ahead]
  | returned =>
    have late : s.ahead ≤ 4 := by simp [State.ahead, Stage.ahead, stage]
    refine proceeds_late h late rfl rfl h.owns ?_ rfl
    simp [State.ahead, Stage.ahead, stage]
  | _ =>
    rw [stage] at owns
    exact proceeds_early owns (by rw [stage]; exact Nat.le_refl _) (by decide) (by simp [Owns])

/-! ### The other steps -/

theorem inside_of_talkers {s t : Talk.State M} (h : Inside s) (talkers : t.talkers = s.talkers)
    (pc : t.pc = s.pc) : Inside t := by
  obtain ⟨defined, attached, stocked⟩ := h
  refine ⟨by rwa [pc], by rwa [pc, talkers], fun i l here => ?_⟩
  obtain ⟨talker, found, rfl⟩ := Option.map_eq_some_iff.mp here
  rw [talkers] at found
  have before := stocked i _ (lane_some found)
  rw [pc]
  exact ⟨before.bounded, before.stocked⟩

/-- The steps beside the destructor and the timer thread leave the pass alone, and nothing is attached any
more. -/
structure Beside (s s' : State M) : Prop where
  stage : s'.stage = s.stage
  timer : s'.timer = s.timer
  pc : s'.system.pc = s.system.pc
  talkers : s.stage ≠ .on_connection → s'.system.talkers.length = s.system.talkers.length
  inside : Inside s.system → Inside s'.system

theorem Beside.rests {s s' : State M} (stage : s'.stage = s.stage) (timer : s'.timer = s.timer)
    (system : s'.system = s.system) : Beside s s' :=
  ⟨stage, timer, by rw [system], fun _ => by rw [system], fun inside => by rwa [system]⟩

theorem beside_link (s : State M) (c : Change) : Beside s (link s c) :=
  ⟨rfl, rfl, rfl, fun _ => rfl, fun inside => inside_of_talkers inside rfl rfl⟩

theorem beside_client (s : State M) (e : Talk.Event M) : Beside s (client s e) := by
  have inside (h : Inside s.system) : Inside (Talk.step s.system e) := inside_step h (.event e)
  unfold client
  cases e with
  | attach queue_size head_msg =>
    dsimp only
    split
    · rename_i early
      refine ⟨rfl, rfl, ?_, fun late => absurd early late, inside⟩
      show (Talk.attach s.system (.new queue_size head_msg)).pc = s.system.pc
      unfold Talk.attach
      split <;> rfl
    · exact .rests rfl rfl rfl
  | talk accepts => exact .rests rfl rfl rfl
  | resetTalkers =>
    refine ⟨rfl, rfl, ?_, fun _ => ?_, inside⟩
    · show (Talk.resetTalkers s.system).pc = s.system.pc
      unfold Talk.resetTalkers
      split <;> (try split) <;> rfl
    · show (Talk.resetTalkers s.system).talkers.length = s.system.talkers.length
      unfold Talk.resetTalkers
      split <;> (try split) <;> simp
  | link c =>
    cases c with
    | install =>
      dsimp only
      split
      · exact .rests rfl rfl rfl
      · exact beside_link s _
    | _ => exact beside_link s _
  | _ => exact ⟨rfl, rfl, rfl, fun _ => by simp [Talk.step], inside⟩

theorem beside_act (picojson : Picojson) (s : State M) (e : Event M) :
    e = .destructor ∨ (∃ accepts, e = .timer accepts) ∨
      e.isDestructor = false ∧ e.isTimer = false ∧ Beside s (act picojson s e) := by
  cases e with
  | destructor => exact .inl rfl
  | timer accepts => exact .inr (.inl ⟨accepts, rfl⟩)
  | client e => exact .inr (.inr ⟨rfl, rfl, beside_client s e⟩)
  | attach q topic =>
    refine .inr (.inr ⟨rfl, rfl, ?_⟩)
    unfold act attach
    dsimp only
    split <;> exact .rests rfl rfl rfl
  | message data =>
    refine .inr (.inr ⟨rfl, rfl, ?_⟩)
    unfold act message
    dsimp only
    split <;> exact .rests rfl rfl rfl
  | listen =>
    refine .inr (.inr ⟨rfl, rfl, ?_⟩)
    unfold act listen
    dsimp only
    split
    · exact .rests rfl rfl rfl
    · split <;> exact .rests rfl rfl rfl
    · exact .rests rfl rfl rfl
    · exact .rests rfl rfl rfl
    · exact .rests rfl rfl rfl

/-! ### The timer thread -/

def next (execute : Bool) : Timer.ThreadPc → Timer.ThreadPc
  | .load => if execute then .call else .done
  | .call => .func
  | .func => .sleep
  | .sleep => .load
  | .done => .done

theorem next_eq_func {execute : Bool} {pc : Timer.ThreadPc} : next execute pc = .func ↔ pc = .call := by
  cases pc <;> cases execute <;> simp [next]

theorem work_only {timer : Timer.State Unit} {t : Timer.Thread Unit} (only : timer.threads = [t]) :
    (timer.work 0).threads = [{ t with pc := next timer.execute t.pc }] ∧
      (timer.work 0).execute = timer.execute := by
  obtain ⟨interval_ms, func, pc⟩ := t
  cases pc <;> simp [Timer.State.work, only, Timer.State.move, next]

structure Works (s s' : State M) : Prop where
  stage : s'.stage = s.stage
  owner : s'.timer.owner = s.timer.owner
  execute : s'.timer.execute = s.timer.execute
  single : s'.timer.threads.length = 1
  passing : s'.thread = .func ↔ s'.system.pc ≠ .idle
  inside : Inside s'.system
  less : s.timer.execute = false → s'.waits ≤ s.waits - 1

theorem works_timer {s : State M} (h : Ending s) (accepts : Bool) : Works s (timer s accepts) := by
  obtain ⟨t, only⟩ : ∃ t, s.timer.threads = [t] := List.length_eq_one_iff.mp h.single
  obtain ⟨threads, execute⟩ := work_only only
  have thread : s.thread = t.pc := by simp [State.thread, only]
  have talks : Inside (Talk.talk s.system accepts) := inside_step h.inside (.event (.talk accepts))
  have nearer (busy : s.system.pc ≠ .idle) : (Talk.talk s.system accepts).left ≤ s.system.left - 1 :=
    left_talk h.inside busy accepts
  have passing := h.passing
  have works {system : Talk.State M} (inside : Inside system)
      (passing : t.pc = .call ↔ system.pc ≠ .idle)
      (less : s.timer.execute = false → waits (next s.timer.execute t.pc) system ≤ waits t.pc s.system - 1) :
      Works s { s with timer := s.timer.work 0, system := system } := by
    have thread' : State.thread { s with timer := s.timer.work 0, system := system } =
        next s.timer.execute t.pc := by simp [State.thread, threads]
    refine ⟨rfl, Timer.owner_work _ _, execute, by simp [threads], ?_, inside, ?_⟩
    · rw [thread', next_eq_func]
      exact passing
    · rw [State.waits, State.waits, thread', thread]
      exact less
  rw [thread] at passing
  unfold timer
  rw [thread, Timer.step_thread h.sound.timer.running]
  cases pc : t.pc with
  | call =>
    rw [pc] at works passing
    have idle : s.system.pc = .idle := by simpa using passing
    refine works talks (iff_of_true rfl (by simp [Talk.talk, idle])) fun _ => ?_
    simp [next, waits, Talk.talk, idle, Talk.State.left, Talk.Pc.left]
  | func =>
    rw [pc] at works passing
    have busy : s.system.pc ≠ .idle := passing.mp rfl
    have less := nearer busy
    have some_left : s.system.left ≠ 0 := fun none => busy (idle_of_left h.inside none)
    dsimp only
    split
    · rename_i idle
      refine works talks (iff_of_false (by simp) (not_not.mpr (returns_iff.mp idle))) fun _ => ?_
      simp only [next, waits]
      omega
    · rename_i passes
      refine ⟨rfl, rfl, rfl, h.single, ?_, talks, fun _ => ?_⟩
      · exact iff_of_true (thread.trans pc) fun idle => passes (returns_iff.mpr idle)
      · have same : State.thread { s with system := Talk.talk s.system accepts } = .func := thread.trans pc
        rw [State.waits, State.waits, same, thread, pc]
        simp only [waits]
        omega
  | _ =>
    rw [pc] at works passing
    have idle : s.system.pc = .idle := by simpa using passing
    refine works h.inside (iff_of_false (by simp) (not_not.mpr idle)) fun cleared => ?_
    simp [next, waits, cleared]

/-! ### A step of the client -/

/-- The thread stays where it is unless it takes a step itself. -/
theorem thread_of_threads {s s' : State M} (threads : s'.timer.threads = s.timer.threads) :
    s'.thread = s.thread := by
  rw [State.thread, State.thread, threads]

theorem ending_act {picojson : Picojson} {s : State M} (h : Ending s) (e : Event M) :
    Inside (act picojson s e).system ∧
      ((act picojson s e).thread = .func ↔ (act picojson s e).system.pc ≠ .idle) ∧
      Owns (act picojson s e).stage (act picojson s e).timer.owner ∧
      (act picojson s e).timer.threads.length = 1 ∧
      ((act picojson s e).ahead ≤ 4 → (act picojson s e).timer.execute = false) := by
  rcases beside_act picojson s e with rfl | ⟨accepts, rfl⟩ | ⟨-, -, stage, timer, pc, -, inside⟩
  · show Inside (destructor s).system ∧ ((destructor s).thread = .func ↔ (destructor s).system.pc ≠ .idle) ∧
      Owns (destructor s).stage (destructor s).timer.owner ∧ (destructor s).timer.threads.length = 1 ∧
      ((destructor s).ahead ≤ 4 → (destructor s).timer.execute = false)
    cases proceeds_destructor h with
    | on system threads owns less cleared =>
      rw [system, thread_of_threads threads, threads]
      exact ⟨h.inside, h.passing, owns, h.single, cleared⟩
    | waits same =>
      rw [same]
      exact ⟨h.inside, h.passing, h.owns, h.single, h.cleared⟩
  · obtain ⟨stage, owner, execute, single, passing, inside, -⟩ := works_timer h accepts
    refine ⟨inside, passing, ?_, single, fun late => execute.trans (h.cleared ?_)⟩
    · show Owns (timer s accepts).stage (timer s accepts).timer.owner
      rw [stage, owner]
      exact h.owns
    · have same : (timer s accepts).ahead = s.ahead := by rw [State.ahead, stage, owner, State.ahead]
      exact same ▸ late
  · refine ⟨inside h.inside, ?_, ?_, ?_, ?_⟩
    · rw [State.thread, timer, pc]
      exact h.passing
    · rw [stage, timer]
      exact h.owns
    · rw [timer]
      exact h.single
    · rw [State.ahead, stage, timer]
      exact h.cleared

theorem ending_step {picojson : Picojson} {s : State M} (h : Ending s) (e : Event M) :
    Ending (step picojson s e) := by
  have sound : Sound (step picojson s e) := sound_step h.sound e
  obtain ⟨inside, passing, owns, single, cleared⟩ := @ending_act M picojson s h e
  unfold step at sound ⊢
  split at sound
  · rename_i ordered
    rw [if_pos ordered]
    exact ⟨sound, inside, passing, owns, single, cleared⟩
  · rename_i broken
    rw [if_neg broken]
    exact h

theorem ahead_act {picojson : Picojson} {s : State M} (h : Ending s) (e : Event M) :
    (act picojson s e).ahead ≤ s.ahead ∧
      (e.isDestructor = true → (act picojson s e).ahead ≤ s.ahead - 1 ∨ s.ahead ≤ 4 ∧ s.thread ≠ .done) := by
  rcases beside_act picojson s e with rfl | ⟨accepts, rfl⟩ | ⟨other, -, beside⟩
  · show (destructor s).ahead ≤ s.ahead ∧
      (_ → (destructor s).ahead ≤ s.ahead - 1 ∨ s.ahead ≤ 4 ∧ s.thread ≠ .done)
    cases proceeds_destructor h with
    | on system threads owns less => exact ⟨less.trans (Nat.sub_le _ _), fun _ => .inl less⟩
    | waits same joins busy => exact ⟨Nat.le_of_eq (by rw [same]), fun _ => .inr ⟨joins, busy⟩⟩
  · have works := works_timer h accepts
    refine ⟨?_, nofun⟩
    show (timer s accepts).ahead ≤ s.ahead
    rw [State.ahead, works.stage, works.owner]
    exact Nat.le_refl _
  · refine ⟨?_, fun destructs => by simp [other] at destructs⟩
    rw [State.ahead, beside.stage, beside.timer]
    exact Nat.le_refl _

theorem waits_act {picojson : Picojson} {s : State M} (h : Ending s) (late : s.ahead ≤ 4) (e : Event M) :
    (act picojson s e).waits ≤ s.waits - if e.isTimer then 1 else 0 := by
  rcases beside_act picojson s e with rfl | ⟨accepts, rfl⟩ | ⟨-, other, beside⟩
  · show (destructor s).waits ≤ s.waits
    cases proceeds_destructor h with
    | on system threads => exact Nat.le_of_eq (by rw [State.waits, thread_of_threads threads, system, State.waits])
    | waits same => exact Nat.le_of_eq (by rw [same])
  · exact (works_timer h accepts).less (h.cleared late)
  · have begun : s.stage ≠ .on_connection := by
      intro early
      simp [State.ahead, early, Stage.ahead] at late
    have left : (act picojson s e).system.left = s.system.left := by
      rw [Talk.State.left, beside.pc, beside.talkers begun, Talk.State.left]
    rw [if_neg (by simp [other]), State.waits, State.waits,
      thread_of_threads (congrArg Timer.State.threads beside.timer)]
    cases s.thread <;> simp [waits, left, beside.talkers begun]

/-! ### Whole runs -/

theorem ending_start (phase : Phase) : Ending (start phase : State M) where
  sound := sound_start phase
  inside := inside_run phase []
  passing := serving_start.passing
  owns := rfl
  single := rfl
  cleared late := by
    have early : (start phase : State M).ahead = 12 := rfl
    omega

/-- What counts until there is an access to a member that is destroyed. -/
def State.untilBroken (rank : State M → Nat) (s : State M) : Nat := if Ordered s then rank s else 0

section Rank

variable {picojson : Picojson} {rank : State M → Nat}
  (unlogged : ∀ (t : State M) (log : List Access), rank { t with log := log } = rank t)

include unlogged

theorem rank_step {s : State M} {e : Event M} (less : rank (act picojson s e) ≤ rank s) :
    rank (step picojson s e) ≤ rank s := by
  unfold step
  split
  · rw [unlogged]
    exact less
  · exact Nat.le_refl _

theorem untilBroken_step {s : State M} {e : Event M} {n : Nat} (less : rank (act picojson s e) ≤ rank s - n) :
    (step picojson s e).untilBroken rank ≤ s.untilBroken rank - n := by
  unfold State.untilBroken step
  by_cases ordered : Ordered s
  · rw [if_pos ordered, if_pos ordered]
    split
    · rw [unlogged]
      exact less
    · exact Nat.zero_le _
  · simp [ordered]

/-- Enough steps of one kind use a rank up, in a run that is defined to its end. -/
theorem used_up {Inv : State M → Prop} {own : Event M → Bool}
    (keep : ∀ s e, Inv s → Inv (step picojson s e))
    (down : ∀ s e, Inv s → rank (act picojson s e) ≤ rank s - if own e then 1 else 0)
    {s : State M} (start : Inv s) {events : List (Event M)} (enough : rank s ≤ events.countP own)
    (ordered : Ordered (run picojson s events)) : rank (run picojson s events) = 0 := by
  have less : (run picojson s events).untilBroken rank ≤ s.untilBroken rank - events.countP own :=
    Machine.rank_run (State.untilBroken rank) own keep (fun s e h => untilBroken_step unlogged (down s e h))
      start events
  have most : s.untilBroken rank ≤ rank s := by
    unfold State.untilBroken
    split
    · exact Nat.le_refl _
    · exact Nat.zero_le _
  rw [State.untilBroken, if_pos ordered] at less
  omega

end Rank

theorem ordered_of_run {picojson : Picojson} {s : State M} {events : List (Event M)}
    (ordered : Ordered (run picojson s events)) : Ordered s := by
  by_contra broken
  have keep : ∀ (s : State M) (e : Event M), ¬ Ordered s → ¬ Ordered (step picojson s e) := by
    intro s e broken
    rwa [step, if_neg broken]
  exact Machine.invariant_run keep broken events ordered

structure Late (s : State M) : Prop where
  ending : Ending s
  late : s.ahead ≤ 4

theorem late_step {picojson : Picojson} {s : State M} (h : Late s) (e : Event M) : Late (step picojson s e) :=
  ⟨ending_step h.ending e, (rank_step (fun _ _ => rfl) (ahead_act h.ending e).1).trans h.late⟩

structure Joined (s : State M) : Prop where
  late : Late s
  none : s.waits = 0

theorem Joined.done {s : State M} (h : Joined s) : s.thread = .done := by
  have none := h.none
  unfold State.waits at none
  cases thread : s.thread with
  | done => rfl
  | _ =>
    rw [thread] at none
    simp [waits] at none

theorem joined_step {picojson : Picojson} {s : State M} (h : Joined s) (e : Event M) :
    Joined (step picojson s e) := by
  refine ⟨late_step h.late e, Nat.le_zero.mp ?_⟩
  have less : (step picojson s e).waits ≤ s.waits :=
    rank_step (fun _ _ => rfl) ((waits_act h.late.ending h.late.late e).trans (Nat.sub_le _ _))
  rwa [h.none] at less

theorem waits_le (s : State M) : s.waits ≤ 6 * s.system.talkers.length + 5 := by
  have left := Talk.Pc.left_le s.system.talkers.length s.system.pc
  unfold State.waits
  cases s.thread <;> simp only [waits, Talk.State.left] <;> omega

theorem Ending.ahead_le {s : State M} (h : Ending s) : s.ahead ≤ 12 := by
  have owns := h.owns
  unfold State.ahead
  cases stage : s.stage with
  | talker_timer =>
    rw [stage] at owns
    rcases owns with owner | owner | owner | owner | owner | owner <;> simp [owner, Stage.ahead]
  | _ => simp [Stage.ahead]

theorem returned_of_ahead {s : State M} (h : Ending s) (none : s.ahead = 0) : s.stage = .returned := by
  have owns := h.owns
  unfold State.ahead at none
  cases stage : s.stage with
  | returned => rfl
  | talker_timer =>
    rw [stage] at owns none
    rcases owns with owner | owner | owner | owner | owner | owner <;> simp [owner, Stage.ahead] at none
  | _ =>
    rw [stage] at none
    cases none

section Phases

variable {picojson : Picojson} {s : State M} {events : List (Event M)}

theorem late_run (h : Ending s) (closes : 8 ≤ events.countP Event.isDestructor)
    (ordered : Ordered (run picojson s events)) : Late (run picojson s events) := by
  have keep : ∀ (s : State M) (e : Event M), Ending s → Ending (step picojson s e) := fun _ e h => ending_step h e
  have most := h.ahead_le
  refine ⟨Machine.invariant_run keep h events, Nat.sub_eq_zero_iff_le.mp ?_⟩
  refine @used_up M picojson (fun s => s.ahead - 4) (fun _ _ => rfl) Ending Event.isDestructor keep
    (fun s e h => ?_) s h events (by omega) ordered
  obtain ⟨less, on⟩ := @ahead_act M picojson s h e
  split
  · rename_i destructs
    have nearer := on destructs
    omega
  · omega

theorem joined_run (h : Late s) (works : 6 * s.system.talkers.length + 5 ≤ events.countP Event.isTimer)
    (ordered : Ordered (run picojson s events)) : Joined (run picojson s events) := by
  have keep : ∀ (s : State M) (e : Event M), Late s → Late (step picojson s e) := fun _ e h => late_step h e
  refine ⟨Machine.invariant_run keep h events, ?_⟩
  exact used_up (fun _ _ => rfl) keep (fun s e h => waits_act h.ending h.late e) h ((waits_le s).trans works) ordered

theorem returned_run (h : Joined s) (leaves : 4 ≤ events.countP Event.isDestructor)
    (ordered : Ordered (run picojson s events)) : (run picojson s events).stage = .returned := by
  have keep : ∀ (s : State M) (e : Event M), Joined s → Joined (step picojson s e) :=
    fun _ e h => joined_step h e
  refine returned_of_ahead (Machine.invariant_run keep h events).late.ending ?_
  refine used_up (fun _ _ => rfl) keep (fun s e h => ?_) h (h.late.late.trans leaves) ordered
  obtain ⟨less, on⟩ := @ahead_act M picojson s h.late.ending e
  split
  · rename_i destructs
    exact (on destructs).resolve_right fun waits => waits.2 h.done
  · exact less

end Phases

/-- `~RosbridgeClient` returns: eight steps bring it to the join, the timer thread ends within so many of its
own, and four more follow. Only an access to a member that is destroyed comes before that. -/
theorem shutdown_returns {picojson : Picojson} {phase : Phase} {closing waiting after : List (Event M)}
    (closes : 8 ≤ closing.countP Event.isDestructor)
    (works : 6 * (run picojson (start phase) closing).system.talkers.length + 5 ≤ waiting.countP Event.isTimer)
    (leaves : 4 ≤ after.countP Event.isDestructor) :
    let s : State M := run picojson (start phase) (closing ++ waiting ++ after)
    s.stage = .returned ∨ ¬ Ordered s := by
  intro s
  have whole : s = run picojson (run picojson (run picojson (start phase) closing) waiting) after := by
    show run picojson (start phase) (closing ++ waiting ++ after) = _
    rw [run, Machine.run_append, Machine.run_append]
  by_cases ordered : Ordered s
  · rw [whole] at ordered ⊢
    have waited := ordered_of_run ordered
    have late : Late (run picojson (start phase) closing) :=
      late_run (ending_start phase) closes (ordered_of_run waited)
    exact .inl (returned_run (joined_run late works waited) leaves ordered)
  · exact .inr ordered

/-- The timer thread has begun a pass when the destructor comes to the join, and there is no connection. -/
def busy : List (Event Serializer) :=
  clients [.attach 1 head] ++ List.replicate 2 (.timer true) ++ destroys 8

theorem shutdown_returns_busy :
    (run picojson.package (start .offline) (busy ++ List.replicate 11 (.timer true) ++ destroys 4)).stage =
      .returned := by
  have whole := @shutdown_returns Serializer picojson.package .offline busy (List.replicate 11 (.timer true))
    (destroys 4) (by decide +kernel) (by decide +kernel) (by decide +kernel)
  exact whole.resolve_right fun broken => broken (by decide +kernel)

end Rosbridge.Shutdown
