import Mathlib.Logic.Function.Basic
import Rosbridge.Library.Machine

/-!
# One mutex

Threads call the methods of an object, whose bodies are critical sections of one mutex and are run
in small steps. Whatever the interleaving, the calls that have ended could have been executed one after
the other, in the order in which they ended: with the same results, and the same object.
-/

namespace Mutex

/-- A call begins with `enter`; a step goes on or yields the result. -/
structure Object (χ κ σ ρ : Type*) where
  enter : χ → κ
  step : κ → σ → σ × (κ ⊕ ρ)

variable {χ κ σ ρ θ : Type*} {object : Object χ κ σ ρ}

/-! ### A critical section by itself -/

inductive Runs (object : Object χ κ σ ρ) : κ → σ → σ → ρ → Prop where
  | yields {k : κ} {s s' : σ} {r : ρ} (last : object.step k s = (s', .inr r)) : Runs object k s s' r
  | goes {k k' : κ} {s s₁ s' : σ} {r : ρ} (first : object.step k s = (s₁, .inl k'))
      (rest : Runs object k' s₁ s' r) : Runs object k s s' r

inductive Reaches (object : Object χ κ σ ρ) (k : κ) (s : σ) : κ → σ → Prop where
  | here : Reaches object k s k s
  | goes {k₁ k₂ : κ} {s₁ s₂ : σ} (before : Reaches object k s k₁ s₁)
      (next : object.step k₁ s₁ = (s₂, .inl k₂)) : Reaches object k s k₂ s₂

theorem Reaches.runs {k k' : κ} {s s₁ s' : σ} {r : ρ} (before : Reaches object k s k' s₁)
    (rest : Runs object k' s₁ s' r) : Runs object k s s' r := by
  induction before with
  | here => exact rest
  | goes before next ih => exact ih (.goes next rest)

theorem Runs.unique {k : κ} {s s₁ s₂ : σ} {r₁ r₂ : ρ} (h₁ : Runs object k s s₁ r₁)
    (h₂ : Runs object k s s₂ r₂) : s₁ = s₂ ∧ r₁ = r₂ := by
  induction h₁ with
  | yields last =>
    cases h₂ with
    | yields last' =>
      rw [last] at last'
      obtain ⟨same, same'⟩ := Prod.mk.inj last'
      exact ⟨same, Sum.inr.inj same'⟩
    | goes first =>
      rw [last] at first
      cases first
  | goes first rest ih =>
    cases h₂ with
    | yields last =>
      rw [first] at last
      cases last
    | goes first' rest' =>
      rw [first] at first'
      cases first'
      exact ih rest'

/-! ### The threads -/

inductive Phase (χ κ ρ : Type*) where
  | idle
  | waiting (call : χ)
  | inside (call : χ) (now : κ)
  | leaving (result : ρ)

inductive Entry (χ ρ θ : Type*) where
  | called (t : θ) (call : χ)
  | ended (t : θ) (call : χ) (result : ρ)
  | returned (t : θ) (result : ρ)

def Entry.thread : Entry χ ρ θ → θ
  | called t _ => t
  | ended t _ _ => t
  | returned t _ => t

structure State (χ κ σ ρ θ : Type*) where
  object : σ
  holder : Option θ := none
  phase : θ → Phase χ κ ρ := fun _ => .idle
  log : List (Entry χ ρ θ) := []

/-! ### One call after the other -/

def Entry.ended? : Entry χ ρ θ → Option (χ × ρ)
  | ended _ call r => some (call, r)
  | _ => none

def ended (log : List (Entry χ ρ θ)) : List (χ × ρ) := log.filterMap Entry.ended?

/-- These calls, executed one after the other, yield these results. -/
inductive Sequential (object : Object χ κ σ ρ) (init : σ) : List (χ × ρ) → σ → Prop where
  | none : Sequential object init [] init
  | call {calls : List (χ × ρ)} {s s' : σ} {call : χ} {r : ρ} (before : Sequential object init calls s)
      (runs : Runs object (object.enter call) s s' r) : Sequential object init (calls ++ [(call, r)]) s'

inductive Turns (t : θ) : List (Entry χ ρ θ) → Phase χ κ ρ → Prop where
  | start : Turns t [] .idle
  | other {log : List (Entry χ ρ θ)} {phase : Phase χ κ ρ} {entry : Entry χ ρ θ} (before : Turns t log phase)
      (other : entry.thread ≠ t) : Turns t (log ++ [entry]) phase
  | called {log : List (Entry χ ρ θ)} (call : χ) (before : Turns t log .idle) :
      Turns t (log ++ [.called t call]) (.waiting call)
  | enters {log : List (Entry χ ρ θ)} {call : χ} (k : κ) (before : Turns t log (.waiting call)) :
      Turns t log (.inside call k)
  | goes {log : List (Entry χ ρ θ)} {call : χ} {k : κ} (k' : κ) (before : Turns t log (.inside call k)) :
      Turns t log (.inside call k')
  | ended {log : List (Entry χ ρ θ)} {call : χ} {k : κ} (r : ρ) (before : Turns t log (.inside call k)) :
      Turns t (log ++ [.ended t call r]) (.leaving r)
  | returned {log : List (Entry χ ρ θ)} {r : ρ} (before : Turns t log (.leaving r)) :
      Turns t (log ++ [.returned t r]) .idle

/-- The object is where the calls that have ended leave it, but for the section that is under way. -/
def Current (object : Object χ κ σ ρ) (s : State χ κ σ ρ θ) (o : σ) : Prop :=
  match s.holder with
  | none => s.object = o
  | some t =>
    match s.phase t with
    | .inside call k => Reaches object (object.enter call) o k s.object
    | .leaving _ => s.object = o
    | _ => False

def Phase.holds : Phase χ κ ρ → Bool
  | .inside _ _ => true
  | .leaving _ => true
  | _ => false

/-- The history of the calls: a sequential one explains all results and the object, and a call takes
effect between its begin and its return. -/
structure Linearizable (object : Object χ κ σ ρ) (init : σ) (s : State χ κ σ ρ θ) : Prop where
  exclusive : ∀ t, (s.phase t).holds = true ↔ s.holder = some t
  sequential : ∃ o, Sequential object init (ended s.log) o ∧ Current object s o
  turns : ∀ t, Turns t s.log (s.phase t)

theorem linearizable_start (init : σ) : Linearizable (θ := θ) object init { object := init } where
  exclusive t := by simp [Phase.holds]
  sequential := ⟨init, .none, rfl⟩
  turns _ := .start

theorem ended_concat (log : List (Entry χ ρ θ)) (entry : Entry χ ρ θ) :
    ended (log ++ [entry]) = ended log ++ entry.ended?.toList := by
  rw [ended, List.filterMap_append]
  cases h : entry.ended? <;> simp [ended, h]

/-! ### Atomic methods -/

/-- Each section comes to an end, and does in all its steps what the method does at once. -/
def Atomic (object : Object χ κ σ ρ) (apply : χ → σ → σ × ρ) : Prop :=
  ∀ call s, Runs object (object.enter call) s (apply call s).1 (apply call s).2

def execute (apply : χ → σ → σ × ρ) (init : σ) (calls : List χ) : σ × List ρ :=
  calls.foldl (fun sofar call => ((apply call sofar.1).1, sofar.2 ++ [(apply call sofar.1).2])) (init, [])

theorem Sequential.execute {apply : χ → σ → σ × ρ} (atomic : Atomic object apply) {init o : σ}
    {calls : List (χ × ρ)} (h : Sequential object init calls o) :
    Mutex.execute apply init (calls.map Prod.fst) = (o, calls.map Prod.snd) := by
  induction h with
  | none => rfl
  | call before runs ih =>
    obtain ⟨rfl, rfl⟩ := runs.unique (atomic _ _)
    rw [List.map_append, List.map_append, Mutex.execute, List.foldl_append, ← Mutex.execute, ih]
    rfl

/-- The history as one of atomic methods: made one at a time, the calls that have ended give their
results, and the object while the mutex is free. -/
structure Serialised (apply : χ → σ → σ × ρ) (init : σ) (s : State χ κ σ ρ θ) : Prop where
  results : (execute apply init ((ended s.log).map Prod.fst)).2 = (ended s.log).map Prod.snd
  object : s.holder = none → s.object = (execute apply init ((ended s.log).map Prod.fst)).1
  turns : ∀ t, Turns t s.log (s.phase t)

theorem Linearizable.serialised {apply : χ → σ → σ × ρ} (atomic : Atomic object apply) {init : σ}
    {s : State χ κ σ ρ θ} (h : Linearizable object init s) : Serialised apply init s := by
  obtain ⟨-, ⟨o, sequential, current⟩, turns⟩ := h
  have executed := sequential.execute atomic
  refine ⟨by rw [executed], fun free => ?_, turns⟩
  rw [executed]
  rwa [Current, free] at current

/-! ### Every interleaving -/

inductive Action (χ : Type*) where
  | call (call : χ)
  | lock
  | step
  | unlock

variable [DecidableEq θ]

/-- A thread that cannot take the step stays where it is. -/
def step (object : Object χ κ σ ρ) (s : State χ κ σ ρ θ) (e : θ × Action χ) : State χ κ σ ρ θ :=
  let t := e.1
  let goes (phase : Phase χ κ ρ) : θ → Phase χ κ ρ := Function.update s.phase t phase
  match e.2, s.phase t with
  | .call call, .idle => { s with phase := goes (.waiting call), log := s.log ++ [.called t call] }
  | .lock, .waiting call =>
    if s.holder.isSome then s
    else { s with holder := some t, phase := goes (.inside call (object.enter call)) }
  | .step, .inside call k =>
    match object.step k s.object with
    | (o, .inl k) => { s with object := o, phase := goes (.inside call k) }
    | (o, .inr r) => { s with object := o, phase := goes (.leaving r), log := s.log ++ [.ended t call r] }
  | .unlock, .leaving r =>
    { s with holder := none, phase := goes .idle, log := s.log ++ [.returned t r] }
  | _, _ => s

abbrev run (object : Object χ κ σ ρ) (s : State χ κ σ ρ θ) (events : List (θ × Action χ)) :
    State χ κ σ ρ θ :=
  Machine.run (step object) s events

/-- A thread that does not hold the mutex moves, and keeps the object. -/
theorem current_elsewhere {s : State χ κ σ ρ θ} {o : σ} {t : θ} {phase : Phase χ κ ρ}
    {log : List (Entry χ ρ θ)} (current : Current object s o) (away : s.holder ≠ some t) :
    Current object { s with phase := Function.update s.phase t phase, log := log } o := by
  unfold Current at current ⊢
  cases holder : s.holder with
  | none =>
    rw [holder] at current
    exact current
  | some t' =>
    have different : t' ≠ t := by
      rintro rfl
      exact away holder
    simp only [holder] at current
    simp only [Function.update_of_ne different]
    exact current

theorem exclusive_update {s : State χ κ σ ρ θ} {t : θ} {phase : Phase χ κ ρ} {holder : Option θ}
    (exclusive : ∀ t', (s.phase t').holds = true ↔ s.holder = some t')
    (own : phase.holds = true ↔ holder = some t)
    (others : ∀ t', t' ≠ t → (s.holder = some t' ↔ holder = some t')) (t' : θ) :
    (Function.update s.phase t phase t').holds = true ↔ holder = some t' := by
  by_cases same : t' = t
  · subst same
    rw [Function.update_self]
    exact own
  · rw [Function.update_of_ne same]
    exact (exclusive t').trans (others t' same)

theorem turns_update {s : State χ κ σ ρ θ} {t : θ} {phase : Phase χ κ ρ} {entry : Entry χ ρ θ}
    (turns : ∀ t', Turns t' s.log (s.phase t')) (own : entry.thread = t)
    (here : Turns t (s.log ++ [entry]) phase) (t' : θ) :
    Turns t' (s.log ++ [entry]) (Function.update s.phase t phase t') := by
  by_cases same : t' = t
  · subst same
    rw [Function.update_self]
    exact here
  · rw [Function.update_of_ne same]
    exact .other (turns t') (by rw [own]; exact Ne.symm same)

theorem turns_silent {s : State χ κ σ ρ θ} {t : θ} {phase : Phase χ κ ρ}
    (turns : ∀ t', Turns t' s.log (s.phase t')) (here : Turns t s.log phase) (t' : θ) :
    Turns t' s.log (Function.update s.phase t phase t') := by
  by_cases same : t' = t
  · subst same
    rw [Function.update_self]
    exact here
  · rw [Function.update_of_ne same]
    exact turns t'

theorem linearizable_step {init : σ} {s : State χ κ σ ρ θ} (h : Linearizable object init s)
    (e : θ × Action χ) : Linearizable object init (step object s e) := by
  obtain ⟨t, action⟩ := e
  obtain ⟨exclusive, ⟨o, sequential, current⟩, turns⟩ := h
  have here := turns t
  have holds := exclusive t
  unfold step
  dsimp only
  split
  · rename_i call phase
    rw [phase] at here holds
    have away : s.holder ≠ some t := fun held => Bool.false_ne_true (holds.mpr held)
    refine ⟨exclusive_update exclusive (by simp [Phase.holds, away]) fun _ _ => Iff.rfl,
      ⟨o, ?_, current_elsewhere current away⟩, turns_update turns rfl (.called call here)⟩
    rw [ended_concat]
    simpa [Entry.ended?] using sequential
  · rename_i call phase
    rw [phase] at here
    cases holder : s.holder with
    | some t' =>
      rw [if_pos Option.isSome_some]
      exact ⟨exclusive, ⟨o, sequential, current⟩, turns⟩
    | none =>
      rw [if_neg (by simp)]
      have same : s.object = o := by rwa [Current, holder] at current
      refine ⟨exclusive_update exclusive (by simp [Phase.holds]) fun t' other => ?_, ⟨o, sequential, ?_⟩,
        turns_silent turns (.enters _ here)⟩
      · simp [holder, Ne.symm other]
      · simp only [Current, Function.update_self]
        rw [same]
        exact .here
  · rename_i call k phase
    rw [phase] at here holds
    have held : s.holder = some t := holds.mp rfl
    have reached : Reaches object (object.enter call) o k s.object := by
      simpa only [Current, held, phase] using current
    split
    · rename_i object' k' next
      refine ⟨exclusive_update exclusive (by simp [Phase.holds, held]) fun _ _ => Iff.rfl, ⟨o, sequential, ?_⟩,
        turns_silent turns ?_⟩
      · simp only [Current, held, Function.update_self]
        exact .goes reached next
      · exact .goes k' here
    · rename_i object' r last
      refine ⟨exclusive_update exclusive (by simp [Phase.holds, held]) fun _ _ => Iff.rfl, ⟨object', ?_, ?_⟩,
        turns_update turns rfl (.ended r here)⟩
      · rw [ended_concat]
        exact .call sequential (reached.runs (.yields last))
      · simp only [Current, held, Function.update_self]
  · rename_i r phase
    rw [phase] at here holds
    have held : s.holder = some t := holds.mp rfl
    have same : s.object = o := by simpa only [Current, held, phase] using current
    refine ⟨exclusive_update exclusive (by simp [Phase.holds]) fun t' other => ?_, ⟨o, ?_, same⟩,
      turns_update turns rfl (.returned here)⟩
    · simp [held, Ne.symm other]
    · rw [ended_concat]
      simpa [Entry.ended?] using sequential
  · exact ⟨exclusive, ⟨o, sequential, current⟩, turns⟩

/-- Every interleaving of the threads is linearizable. -/
theorem linearizable_run (object : Object χ κ σ ρ) (init : σ) (events : List (θ × Action χ)) :
    Linearizable object init (run object { object := init } events) := by
  have keep : ∀ (s : State χ κ σ ρ θ) (e : θ × Action χ), Linearizable object init s →
      Linearizable object init (step object s e) := fun s e h => linearizable_step h e
  exact Machine.invariant_run keep (linearizable_start init) events

end Mutex
