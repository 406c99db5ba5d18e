import Rosbridge.Library.Machine

/-!
# The timer (`utils.cpp`)

One thread owns the `Timer` and calls `start`, `stop` and at last the destructor, and each `start`
creates a thread that calls `func` until it finds `_execute` cleared. They are interleaved at their
atomic steps. `func` returns, and does not touch the timer.
-/

namespace Rosbridge.Timer

/-- Before the call of that name, and `func` while it runs. -/
inductive ThreadPc where
  | load
  | call
  | func
  | sleep
  | done
deriving DecidableEq

structure Thread (F : Type) where
  interval_ms : Int32
  func : F
  pc : ThreadPc := .load

inductive Caller (F : Type) where
  | owner
  | start (interval_ms : Int32) (func : F)
  | destructor

/-- The next step of the owner. `launch` constructs the thread and `assign` moves it to `_thd`;
`members` is the destructor of `_thd`. -/
inductive Pc (F : Type) where
  | idle
  | start (interval_ms : Int32) (func : F)
  | destructor
  | stop (caller : Caller F)
  | join (caller : Caller F)
  | arm (interval_ms : Int32) (func : F)
  | launch (interval_ms : Int32) (func : F)
  | assign (k : Nat)
  | members
  | destroyed
  | terminated

/-- A call that returned. `start k` is the one that created the thread `k`. -/
inductive Call where
  | start (k : Nat)
  | stop
  | destructor
deriving DecidableEq

inductive Entry (F : Type) where
  | returned (call : Call)
  | began (k : Nat) (func : F)
  | ended (k : Nat) (func : F)

/-- `_thd` names the thread that it can join. -/
structure State (F : Type) where
  execute : Bool := false
  thd : Option Nat := none
  threads : List (Thread F) := []
  owner : Pc F := .idle
  log : List (Entry F) := []

/-- `created` tells whether the system has a thread to give. -/
inductive Event (F : Type) where
  | start (interval_ms : Int32) (func : F)
  | stop
  | destructor
  | owner (created : Bool)
  | thread (k : Nat)

variable {F : Type}

def Caller.resume : Caller F → Pc F
  | .owner => .idle
  | .start interval_ms func => .arm interval_ms func
  | .destructor => .members

namespace State

def is_running (s : State F) : Bool := s.execute && s.thd.isSome

def isDone (s : State F) (k : Nat) : Bool := s.threads[k]?.all fun t => t.pc = .done

/-- `stop` returns, to the owner or inside of `start` and of the destructor. -/
def stopped (s : State F) (caller : Caller F) : State F :=
  { s with thd := none, owner := caller.resume, log := s.log ++ [.returned .stop] }

/-- A joinable `std::thread` that is assigned to or destroyed ends the process. -/
def own (s : State F) (created : Bool) : State F :=
  match s.owner with
  | .idle => s
  | .start interval_ms func =>
    if s.execute then { s with owner := .stop (.start interval_ms func) }
    else { s with owner := .arm interval_ms func }
  | .destructor => if s.execute then { s with owner := .stop .destructor } else { s with owner := .members }
  | .stop caller => { s with execute := false, owner := .join caller }
  | .join caller =>
    match s.thd with
    | none => s.stopped caller
    | some k => if s.isDone k then s.stopped caller else s
  | .arm interval_ms func => { s with execute := true, owner := .launch interval_ms func }
  | .launch interval_ms func =>
    if created then
      { s with
        threads := s.threads ++ [{ interval_ms := interval_ms, func := func }]
        owner := .assign s.threads.length }
    -- `start` throws.
    else { s with owner := .idle }
  | .assign k =>
    if s.thd.isSome then { s with owner := .terminated }
    else { s with thd := some k, owner := .idle, log := s.log ++ [.returned (.start k)] }
  | .members =>
    if s.thd.isSome then { s with owner := .terminated }
    else { s with owner := .destroyed, log := s.log ++ [.returned .destructor] }
  | .destroyed => s
  | .terminated => s

def move (s : State F) (k : Nat) (t : Thread F) (pc : ThreadPc) : State F :=
  { s with threads := s.threads.set k { t with pc := pc } }

def work (s : State F) (k : Nat) : State F :=
  match s.threads[k]? with
  | none => s
  | some t =>
    match t.pc with
    | .load => s.move k t (if s.execute then .call else .done)
    | .call => { s.move k t .func with log := s.log ++ [.began k t.func] }
    | .func => { s.move k t .sleep with log := s.log ++ [.ended k t.func] }
    | .sleep => s.move k t .load
    | .done => s

end State

open State

/-- The owner begins a call after it has finished the one before. -/
def step (s : State F) (e : Event F) : State F :=
  match s.owner, e with
  | .terminated, _ => s
  | .idle, .start interval_ms func => { s with owner := .start interval_ms func }
  | .idle, .stop => { s with owner := .stop .owner }
  | .idle, .destructor => { s with owner := .destructor }
  | _, .owner created => s.own created
  | _, .thread k => s.work k
  | _, _ => s

abbrev run (s : State F) (events : List (Event F)) : State F := Machine.run step s events

def start : State F where

def State.live (s : State F) (k : Nat) : Prop := ∃ t, s.threads[k]? = some t ∧ t.pc ≠ .done

def Entry.returned? : Entry F → Option Call
  | .returned call => some call
  | _ => none

def State.last (s : State F) : Option Call := (s.log.filterMap Entry.returned?).getLast?

def Entry.isBegan : Entry F → Bool
  | .began _ _ => true
  | _ => false

def State.begun (s : State F) : Nat := s.log.countP Entry.isBegan

/-- Once a later call has returned, the function of an earlier `start` neither runs nor begins. -/
def Silenced (s : State F) : Prop :=
  ∀ before call after, s.log = before ++ .returned call :: after →
    ∀ k, .returned (.start k) ∈ before →
      (∀ func, .began k func ∉ after ∧ .ended k func ∉ after) ∧
        ∀ t, s.threads[k]? = some t → t.pc ≠ .func

/-! ### The invariant -/

def Done (threads : List (Thread F)) (k : Nat) : Prop := ∀ t, threads[k]? = some t → t.pc = .done

def Alone (threads : List (Thread F)) : Prop := ∀ k, k + 1 < threads.length → Done threads k

structure Quiet (s : State F) : Prop where
  thd : s.thd = none
  done : ∀ k, Done s.threads k
  last : ∀ k, s.last ≠ some (.start k)

structure Held (s : State F) (k : Nat) : Prop where
  thd : s.thd = some k
  length : s.threads.length = k + 1
  alone : Alone s.threads

structure Running (s : State F) (k : Nat) : Prop where
  held : Held s k
  execute : s.execute = true
  last : s.last = some (.start k)

structure Launched (s : State F) (k : Nat) : Prop where
  thd : s.thd = none
  length : s.threads.length = k + 1
  alone : Alone s.threads
  execute : s.execute = true
  first : ∀ j, .returned (.start j) ∈ s.log → j < k

def At (s : State F) : Pc F → Prop
  | .idle | .start _ _ | .destructor | .stop _ => Quiet s ∨ ∃ k, Running s k
  | .join _ => Quiet s ∨ ∃ k, Held s k
  | .arm _ _ | .members | .destroyed => Quiet s
  | .launch _ _ => Quiet s ∧ s.execute = true
  | .assign k => Launched s k
  | .terminated => False

/-- When a call has returned, the threads of the calls before it are done. -/
def Stopped (log : List (Entry F)) (threads : List (Thread F)) : Prop :=
  ∀ before call after, log = before ++ .returned call :: after →
    ∀ k, .returned (.start k) ∈ before →
      Done threads k ∧ ∀ func, .began k func ∉ after ∧ .ended k func ∉ after

structure Sound (s : State F) : Prop where
  phase : At s s.owner
  known : ∀ k, .returned (.start k) ∈ s.log → k < s.threads.length
  stopped : Stopped s.log s.threads

theorem last_concat (s : State F) (entry : Entry F) :
    ((s.log ++ [entry]).filterMap Entry.returned?).getLast? = entry.returned?.or s.last := by
  cases returned : entry.returned? with
  | none => simp [State.last, returned]
  | some call => simp [returned]

theorem stopped_concat {log : List (Entry F)} {threads : List (Thread F)} {entry : Entry F}
    (h : Stopped log threads)
    (new : ∀ call, entry = .returned call → ∀ k, .returned (.start k) ∈ log → Done threads k)
    (fresh : ∀ k, Done threads k → ∀ func, entry ≠ .began k func ∧ entry ≠ .ended k func) :
    Stopped (log ++ [entry]) threads := by
  intro before call after split k started
  rcases List.eq_nil_or_concat after with rfl | ⟨rest, last, rfl⟩
  · obtain ⟨rfl, same⟩ := List.append_inj' split rfl
    have done := new call (List.singleton_inj.mp same) k started
    exact ⟨done, fun func => ⟨List.not_mem_nil, List.not_mem_nil⟩⟩
  · rw [List.concat_eq_append, ← List.cons_append, ← List.append_assoc] at split
    obtain ⟨same, last_eq⟩ := List.append_inj' split rfl
    obtain rfl := List.singleton_inj.mp last_eq
    obtain ⟨done, silent⟩ := h before call rest same k started
    refine ⟨done, fun func => ?_⟩
    simp only [List.concat_eq_append, List.mem_append, List.mem_singleton, not_or]
    obtain ⟨begins, ends⟩ := fresh k done func
    exact ⟨⟨(silent func).1, begins.symm⟩, (silent func).2, ends.symm⟩

/-- Threads that are done stay done. -/
theorem Stopped.mono {log : List (Entry F)} {threads threads' : List (Thread F)}
    (h : Stopped log threads)
    (keeps : ∀ k, .returned (.start k) ∈ log → Done threads k → Done threads' k) :
    Stopped log threads' := by
  intro before call after split k started
  obtain ⟨done, silent⟩ := h before call after split k started
  refine ⟨keeps k ?_ done, silent⟩
  rw [split]
  exact List.mem_append_left _ started

theorem Sound.silenced {s : State F} (h : Sound s) : Silenced s := by
  intro before call after split k started
  obtain ⟨done, silent⟩ := h.stopped before call after split k started
  refine ⟨silent, fun t here running => ?_⟩
  rw [done t here] at running
  cases running

/-! ### The owner -/

theorem quiet_of_thd {s : State F} {P : Prop} (h : Quiet s ∨ P) (held : P → s.thd ≠ none)
    (none : s.thd = none) : Quiet s := by
  rcases h with quiet | holds
  · exact quiet
  · exact absurd none (held holds)

theorem quiet_of_execute {s : State F} (h : Quiet s ∨ ∃ k, Running s k) (cleared : ¬ s.execute = true) :
    Quiet s := by
  rcases h with quiet | ⟨k, running⟩
  · exact quiet
  · exact absurd running.execute cleared

theorem Held.done {s : State F} {k : Nat} (h : Held s k) (ended : s.isDone k = true) (j : Nat) :
    Done s.threads j := by
  intro t here
  obtain ⟨inside, -⟩ := List.getElem?_eq_some_iff.mp here
  have length := h.length
  rcases Nat.lt_or_eq_of_le (show j ≤ k by omega) with earlier | rfl
  · exact h.alone j (by omega) t here
  · simpa [isDone, here] using ended

/-- Nothing is left to join. -/
theorem sound_stopped {s : State F} (h : Sound s) (done : ∀ k, Done s.threads k) (caller : Caller F) :
    Sound (s.stopped caller) where
  phase := by
    have quiet : Quiet (s.stopped caller) :=
      ⟨rfl, done, fun k same => by rw [State.last, stopped, last_concat] at same; cases same⟩
    cases caller with
    | owner => exact .inl quiet
    | start interval_ms func => exact quiet
    | destructor => exact quiet
  known k started := h.known k (by simpa [stopped] using started)
  stopped := stopped_concat h.stopped (fun call same k started => done k)
    (fun k ended func => ⟨nofun, nofun⟩)

theorem sound_launch {s : State F} (h : Sound s) (quiet : Quiet s) (armed : s.execute = true)
    (thread : Thread F) :
    Sound { s with threads := s.threads ++ [thread], owner := .assign s.threads.length } where
  phase := by
    refine ⟨quiet.thd, by simp, fun k earlier t here => ?_, armed, h.known⟩
    rw [List.length_append, List.length_singleton, Nat.add_lt_add_iff_right] at earlier
    rw [List.getElem?_append_left earlier] at here
    exact quiet.done k t here
  known k started := by
    have inside := h.known k started
    simp only [List.length_append, List.length_singleton]
    omega
  stopped := by
    refine h.stopped.mono fun k started done t here => ?_
    rw [List.getElem?_append_left (h.known k started)] at here
    exact done t here

theorem sound_assign {s : State F} {k : Nat} (h : Sound s) (launched : Launched s k) :
    Sound { s with thd := some k, owner := .idle, log := s.log ++ [.returned (.start k)] } where
  phase := by
    refine .inr ⟨k, ⟨rfl, launched.length, launched.alone⟩, launched.execute, ?_⟩
    rw [State.last, last_concat]
    rfl
  known j started := by
    rw [List.mem_append, List.mem_singleton] at started
    rcases started with started | same
    · exact h.known j started
    · obtain rfl : j = k := by simpa using same
      show j < s.threads.length
      rw [launched.length]
      exact Nat.lt_succ_self j
  stopped := by
    refine stopped_concat h.stopped (fun call same j started => launched.alone j ?_)
      (fun j done func => ⟨nofun, nofun⟩)
    rw [launched.length]
    exact Nat.succ_lt_succ (launched.first j started)

theorem sound_destroyed {s : State F} (h : Sound s) (quiet : Quiet s) :
    Sound { s with owner := .destroyed, log := s.log ++ [.returned .destructor] } where
  phase := by
    refine ⟨quiet.thd, quiet.done, fun k same => ?_⟩
    rw [State.last, last_concat] at same
    cases same
  known k started := h.known k (by simpa using started)
  stopped := stopped_concat h.stopped (fun call same k started => quiet.done k)
    (fun k done func => ⟨nofun, nofun⟩)

/-- `At` does not look at the next step. -/
theorem At.goes {s : State F} {pc : Pc F} (next : Pc F) (h : At s pc) :
    At { s with owner := next } pc := by
  have quiet (h : Quiet s) : Quiet { s with owner := next } := ⟨h.thd, h.done, h.last⟩
  have held {k : Nat} (h : Held s k) : Held { s with owner := next } k := ⟨h.thd, h.length, h.alone⟩
  have running : (Quiet s ∨ ∃ k, Running s k) →
      Quiet { s with owner := next } ∨ ∃ k, Running { s with owner := next } k := by
    rintro (still | ⟨k, runs⟩)
    · exact .inl (quiet still)
    · exact .inr ⟨k, held runs.held, runs.execute, runs.last⟩
  cases pc with
  | idle => exact running h
  | start interval_ms func => exact running h
  | destructor => exact running h
  | stop caller => exact running h
  | join caller =>
    rcases h with still | ⟨k, holds⟩
    · exact .inl (quiet still)
    · exact .inr ⟨k, held holds⟩
  | arm interval_ms func => exact quiet h
  | members => exact quiet h
  | destroyed => exact quiet h
  | launch interval_ms func => exact ⟨quiet h.1, h.2⟩
  | assign k => exact ⟨h.thd, h.length, h.alone, h.execute, h.first⟩
  | terminated => exact h

theorem Sound.goes {s : State F} (h : Sound s) {pc : Pc F} (next : At s pc) :
    Sound { s with owner := pc } :=
  ⟨next.goes pc, h.known, h.stopped⟩

theorem sound_own {s : State F} (h : Sound s) (created : Bool) : Sound (s.own created) := by
  have phase := h.phase
  unfold own
  cases owner : s.owner with
  | idle => exact h
  | destroyed => exact h
  | terminated => exact h
  | start interval_ms func =>
    rw [owner] at phase
    dsimp only
    split
    · exact h.goes phase
    · rename_i cleared
      exact h.goes (quiet_of_execute phase cleared)
  | destructor =>
    rw [owner] at phase
    dsimp only
    split
    · exact h.goes phase
    · rename_i cleared
      exact h.goes (quiet_of_execute phase cleared)
  | stop caller =>
    rw [owner] at phase
    refine ⟨?_, h.known, h.stopped⟩
    rcases phase with quiet | ⟨k, running⟩
    · exact .inl ⟨quiet.thd, quiet.done, quiet.last⟩
    · exact .inr ⟨k, running.held.thd, running.held.length, running.held.alone⟩
  | join caller =>
    rw [owner] at phase
    dsimp only
    split
    · rename_i none
      refine sound_stopped h (quiet_of_thd phase ?_ none).done caller
      rintro ⟨k, held⟩ nothing
      rw [held.thd] at nothing
      cases nothing
    · rename_i k thd
      split
      · rename_i ended
        rcases phase with quiet | ⟨j, held⟩
        · rw [quiet.thd] at thd
          cases thd
        · obtain rfl : j = k := Option.some.inj (held.thd.symm.trans thd)
          exact sound_stopped h (held.done ended) caller
      · exact h
  | arm interval_ms func =>
    rw [owner] at phase
    exact ⟨⟨⟨phase.thd, phase.done, phase.last⟩, rfl⟩, h.known, h.stopped⟩
  | launch interval_ms func =>
    rw [owner] at phase
    dsimp only
    split
    · exact sound_launch h phase.1 phase.2 _
    · exact h.goes (.inl phase.1)
  | assign k =>
    rw [owner] at phase
    dsimp only
    rw [if_neg (by simp [phase.thd])]
    exact sound_assign h phase
  | members =>
    rw [owner] at phase
    dsimp only
    rw [if_neg (by simp [show s.thd = none from phase.thd])]
    exact sound_destroyed h phase

/-- The owner creates threads, and takes none of them further. -/
theorem threads_own (s : State F) (created : Bool) : (s.own created).threads = s.threads ∨
    ∃ t, t.pc = .load ∧ (s.own created).threads = s.threads ++ [t] := by
  unfold own
  cases s.owner with
  | launch interval_ms func =>
    dsimp only
    split
    · exact .inr ⟨{ interval_ms := interval_ms, func := func }, rfl, rfl⟩
    · exact .inl rfl
  | join caller =>
    dsimp only
    split
    · exact .inl rfl
    · split <;> exact .inl rfl
  | start interval_ms func => exact .inl (by dsimp only; split <;> rfl)
  | destructor => exact .inl (by dsimp only; split <;> rfl)
  | assign k => exact .inl (by dsimp only; split <;> rfl)
  | members => exact .inl (by dsimp only; split <;> rfl)
  | _ => exact .inl rfl

theorem begun_own (s : State F) (created : Bool) : (s.own created).begun = s.begun := by
  have returned (log : List (Entry F)) (call : Call) :
      (log ++ [Entry.returned call]).countP Entry.isBegan = log.countP Entry.isBegan := by
    simp [Entry.isBegan]
  unfold own
  cases s.owner with
  | launch interval_ms func =>
    dsimp only
    split <;> rfl
  | join caller =>
    dsimp only
    split
    · exact returned _ _
    · split
      · exact returned _ _
      · rfl
  | assign k =>
    dsimp only
    split
    · rfl
    · exact returned _ _
  | members =>
    dsimp only
    split
    · rfl
    · exact returned _ _
  | start interval_ms func =>
    dsimp only
    split <;> rfl
  | destructor =>
    dsimp only
    split <;> rfl
  | _ => rfl

theorem begun_step {s : State F} {e : Event F} (owner : ∀ k, e ≠ .thread k) : (step s e).begun = s.begun := by
  unfold step
  split
  · rfl
  · rfl
  · rfl
  · rfl
  · exact begun_own s _
  · exact absurd rfl (owner _)
  · rfl

theorem threads_step {s : State F} {e : Event F} (owner : ∀ k, e ≠ .thread k) :
    (step s e).threads = s.threads ∨ ∃ t, t.pc = .load ∧ (step s e).threads = s.threads ++ [t] := by
  unfold step
  split
  · exact .inl rfl
  · exact .inl rfl
  · exact .inl rfl
  · exact .inl rfl
  · exact threads_own s _
  · exact absurd rfl (owner _)
  · exact .inl rfl

/-! ### The threads -/

/-- What a thread can do in a step, unless it is done. -/
theorem work_cases (s : State F) (k : Nat) :
    s.work k = s ∨ ∃ t t' new, s.threads[k]? = some t ∧ t.pc ≠ .done ∧
      s.work k = { s with threads := s.threads.set k t', log := s.log ++ new } ∧
      (new = [] ∨ new = [.began k t.func] ∨ new = [.ended k t.func]) := by
  unfold work
  split
  · exact .inl rfl
  · rename_i t here
    have quietly (pc : ThreadPc) (busy : t.pc ≠ .done) :
        ∃ u t' new, s.threads[k]? = some u ∧ u.pc ≠ .done ∧
        s.move k t pc = { s with threads := s.threads.set k t', log := s.log ++ new } ∧
        (new = [] ∨ new = [.began k u.func] ∨ new = [.ended k u.func]) :=
      ⟨t, { t with pc := pc }, [], here, busy, by simp [State.move], .inl rfl⟩
    cases pc : t.pc with
    | load => exact .inr (quietly _ (by simp [pc]))
    | sleep => exact .inr (quietly _ (by simp [pc]))
    | call => exact .inr ⟨t, { t with pc := .func }, _, here, by simp [pc], rfl, .inr (.inl rfl)⟩
    | func => exact .inr ⟨t, { t with pc := .sleep }, _, here, by simp [pc], rfl, .inr (.inr rfl)⟩
    | done => exact .inl rfl

theorem step_thread {s : State F} (running : s.owner ≠ .terminated) (k : Nat) :
    step s (.thread k) = s.work k := by
  unfold step
  cases owner : s.owner with
  | terminated => exact absurd owner running
  | _ => rfl

theorem owner_work (s : State F) (k : Nat) : (s.work k).owner = s.owner := by
  rcases work_cases s k with same | ⟨t, t', new, -, -, moved, -⟩
  · rw [same]
  · rw [moved]

/-- A function begins in the step after `call`. -/
theorem work_next {s : State F} {k : Nat} {t : Thread F} (here : s.threads[k]? = some t) :
    ∃ pc, (s.work k).threads[k]? = some { t with pc := pc } ∧ (pc = .func ↔ t.pc = .call) ∧
      (s.work k).begun = s.begun + if t.pc = .call then 1 else 0 := by
  obtain ⟨inside, -⟩ := List.getElem?_eq_some_iff.mp here
  obtain ⟨interval_ms, func, pc⟩ := t
  unfold work
  rw [here]
  cases pc with
  | load =>
    refine ⟨if s.execute then .call else .done, List.getElem?_set_self inside, ?_, rfl⟩
    cases s.execute <;> simp
  | call => exact ⟨.func, List.getElem?_set_self inside, by simp, by simp [begun, Entry.isBegan]⟩
  | func => exact ⟨.sleep, List.getElem?_set_self inside, by simp, by simp [begun, Entry.isBegan]⟩
  | sleep => exact ⟨.load, List.getElem?_set_self inside, by simp, rfl⟩
  | done => exact ⟨.done, here, by simp, rfl⟩

theorem alone_set {threads : List (Thread F)} {k : Nat} {t t' : Thread F} (h : Alone threads)
    (here : threads[k]? = some t) (busy : t.pc ≠ .done) : Alone (threads.set k t') := by
  intro j earlier u there
  rw [List.length_set] at earlier
  have different : k ≠ j := by
    rintro rfl
    exact busy (h k earlier t here)
  rw [List.getElem?_set_ne different] at there
  exact h j earlier u there

/-- A thread that is not done is the last, and the owner has it. -/
theorem at_work {s : State F} {pc : Pc F} (h : At s pc) {k : Nat} {t t' : Thread F} {new : List (Entry F)}
    (here : s.threads[k]? = some t) (busy : t.pc ≠ .done)
    (last : State.last { s with threads := s.threads.set k t', log := s.log ++ new } = s.last)
    (started : ∀ j, .returned (.start j) ∈ s.log ++ new ↔ .returned (.start j) ∈ s.log) :
    At { s with threads := s.threads.set k t', log := s.log ++ new } pc := by
  have loud : ¬ Quiet s := fun quiet => busy (quiet.done k t here)
  have length : (s.threads.set k t').length = s.threads.length := List.length_set
  have held {j : Nat} (h : Held s j) :
      Held { s with threads := s.threads.set k t', log := s.log ++ new } j :=
    ⟨h.thd, length.trans h.length, alone_set h.alone here busy⟩
  have running (h : Quiet s ∨ ∃ j, Running s j) :
      ∃ j, Running { s with threads := s.threads.set k t', log := s.log ++ new } j := by
    obtain ⟨j, runs⟩ := h.resolve_left loud
    exact ⟨j, held runs.held, runs.execute, last.trans runs.last⟩
  cases pc with
  | idle => exact .inr (running h)
  | start interval_ms func => exact .inr (running h)
  | destructor => exact .inr (running h)
  | stop caller => exact .inr (running h)
  | join caller =>
    obtain ⟨j, holds⟩ := h.resolve_left loud
    exact .inr ⟨j, held holds⟩
  | assign j =>
    exact ⟨h.thd, length.trans h.length, alone_set h.alone here busy, h.execute,
      fun i member => h.first i ((started i).mp member)⟩
  | arm interval_ms func => exact absurd h loud
  | members => exact absurd h loud
  | destroyed => exact absurd h loud
  | launch interval_ms func => exact absurd h.1 loud
  | terminated => exact h.elim

theorem stopped_set {log new : List (Entry F)} {threads : List (Thread F)} {k : Nat} {t t' : Thread F}
    (h : Stopped log threads) (here : threads[k]? = some t) (busy : t.pc ≠ .done)
    (entries : new = [] ∨ new = [.began k t.func] ∨ new = [.ended k t.func]) :
    Stopped (log ++ new) (threads.set k t') := by
  have other (j : Nat) (done : Done threads j) : k ≠ j := by
    rintro rfl
    exact busy (done t here)
  have grown : Stopped (log ++ new) threads := by
    rcases entries with rfl | rfl | rfl
    · rwa [List.append_nil]
    · refine stopped_concat h (fun call same => by cases same) fun j done func => ⟨?_, nofun⟩
      simp [other j done]
    · refine stopped_concat h (fun call same => by cases same) fun j done func => ⟨nofun, ?_⟩
      simp [other j done]
  refine grown.mono fun j started done u there => ?_
  rw [List.getElem?_set_ne (other j done)] at there
  exact done u there

theorem sound_work {s : State F} (h : Sound s) (k : Nat) : Sound (s.work k) := by
  rcases work_cases s k with same | ⟨t, t', new, here, busy, moved, entries⟩
  · rw [same]
    exact h
  · have last : State.last { s with threads := s.threads.set k t', log := s.log ++ new } = s.last := by
      rcases entries with rfl | rfl | rfl <;> simp [State.last, Entry.returned?]
    have started (j : Nat) : Entry.returned (.start j) ∈ s.log ++ new ↔ .returned (.start j) ∈ s.log := by
      rcases entries with rfl | rfl | rfl <;> simp
    rw [moved]
    refine ⟨at_work h.phase here busy last started, fun j member => ?_, ?_⟩
    · rw [List.length_set]
      exact h.known j ((started j).mp member)
    · exact stopped_set h.stopped here busy entries

/-! ### The runs -/

theorem sound_step {s : State F} (h : Sound s) (e : Event F) : Sound (step s e) := by
  have idle {pc : Pc F} (owner : s.owner = .idle) (next : At s .idle → At s pc) :
      Sound { s with owner := pc } :=
    h.goes (next (owner ▸ h.phase))
  unfold step
  split
  · exact h
  · rename_i owner
    exact idle owner (fun phase => phase)
  · rename_i owner
    exact idle owner (fun phase => phase)
  · rename_i owner
    exact idle owner (fun phase => phase)
  · exact sound_own h _
  · exact sound_work h _
  · exact h

theorem sound_start : Sound (start : State F) where
  phase := by
    refine .inl ⟨rfl, fun k t here => ?_, fun k same => ?_⟩
    · simp [start] at here
    · simp [State.last, start] at same
  known k started := by simp [start] at started
  stopped before call after split := by simp [start] at split

theorem sound_run (events : List (Event F)) : Sound (run start events) :=
  @Machine.invariant_run _ _ _ Sound (fun _ e h => sound_step h e) start sound_start events

theorem Sound.running {s : State F} (h : Sound s) : s.owner ≠ .terminated := by
  intro terminated
  have phase := h.phase
  rw [terminated] at phase
  exact phase

theorem alone_live {s : State F} (h : Alone s.threads) {j k : Nat} (first : s.live j) (second : s.live k) :
    j = k := by
  have last {i : Nat} (live : s.live i) : i + 1 = s.threads.length := by
    obtain ⟨t, here, busy⟩ := live
    obtain ⟨inside, -⟩ := List.getElem?_eq_some_iff.mp here
    by_contra other
    exact busy (h i (by omega) t here)
  have firsts := last first
  have seconds := last second
  omega

theorem alone_of_at {s : State F} {pc : Pc F} (h : At s pc) : Alone s.threads := by
  have quiet (h : Quiet s) : Alone s.threads := fun k _ => h.done k
  have running (h : Quiet s ∨ ∃ k, Running s k) : Alone s.threads := by
    rcases h with still | ⟨k, runs⟩
    · exact quiet still
    · exact runs.held.alone
  cases pc with
  | idle => exact running h
  | start interval_ms func => exact running h
  | destructor => exact running h
  | stop caller => exact running h
  | join caller =>
    rcases h with still | ⟨k, holds⟩
    · exact quiet still
    · exact holds.alone
  | arm interval_ms func => exact quiet h
  | members => exact quiet h
  | destroyed => exact quiet h
  | launch interval_ms func => exact quiet h.1
  | assign k => exact h.alone
  | terminated => exact h.elim

theorem running_iff {s : State F} (h : Quiet s ∨ ∃ k, Running s k) :
    s.is_running = true ↔ ∃ k, s.last = some (.start k) := by
  rcases h with quiet | ⟨k, running⟩
  · refine iff_of_false ?_ (fun ⟨k, same⟩ => quiet.last k same)
    simp [is_running, quiet.thd]
  · exact iff_of_true (by simp [is_running, running.execute, running.held.thd]) ⟨k, running.last⟩

/-- At most one thread of the timer lives. `_thd` is never assigned or destroyed while it is joinable.
No function goes on after a later call, and between two calls `is_running` tells whether the last one
was `start`. -/
theorem timer_has_one_thread (events : List (Event F)) :
    let s := run start events
    (∀ j k, s.live j → s.live k → j = k) ∧ s.owner ≠ .terminated ∧ Silenced s ∧
      (s.owner = .idle → (s.is_running = true ↔ ∃ k, s.last = some (.start k))) := by
  intro s
  have sound : Sound s := sound_run events
  refine ⟨fun j k first second => alone_live (alone_of_at sound.phase) first second, sound.running,
    sound.silenced, fun idle => ?_⟩
  have phase := sound.phase
  rw [idle] at phase
  exact running_iff phase

/-- A second `start` waits for the first function. -/
def restarted : List (Event Unit) :=
  .start 5 () :: List.replicate 4 (.owner true) ++ List.replicate 2 (.thread 0) ++ .start 7 () ::
    List.replicate 3 (.owner true) ++ List.replicate 3 (.thread 0) ++ List.replicate 4 (.owner true) ++
    List.replicate 2 (.thread 1)

example : (run start restarted).threads.map Thread.pc = [.done, .func] ∧
    (run start restarted).last = some (.start 1) := by decide

end Rosbridge.Timer
