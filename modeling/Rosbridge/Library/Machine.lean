import Mathlib.Data.List.Basic

/-!
# Machines

A machine is a total step function; a run is a list of events. `invariant_along` is the induction
rule for the runs whose every step meets a condition.
-/

namespace Machine

variable {σ ε : Type*}

def run (step : σ → ε → σ) : σ → List ε → σ
  | s, [] => s
  | s, e :: rest => run step (step s e) rest

/-- Every event of the run meets `ok` in the state it is taken from. -/
def Along (step : σ → ε → σ) (ok : σ → ε → Prop) : σ → List ε → Prop
  | _, [] => True
  | s, e :: rest => ok s e ∧ Along step ok (step s e) rest

variable {step : σ → ε → σ}

theorem run_append (s : σ) (before after : List ε) :
    run step s (before ++ after) = run step (run step s before) after := by
  induction before generalizing s with
  | nil => rfl
  | cons e rest ih => exact ih _

theorem along_append {ok : σ → ε → Prop} {s : σ} {before after : List ε} :
    Along step ok s (before ++ after) ↔ Along step ok s before ∧ Along step ok (run step s before) after := by
  induction before generalizing s with
  | nil => simp [Along, run]
  | cons e rest ih => rw [List.cons_append, Along, Along, run, ih, and_assoc]

instance decidableAlong {ok : σ → ε → Prop} [∀ s e, Decidable (ok s e)] :
    ∀ (s : σ) (events : List ε), Decidable (Along step ok s events)
  | _, [] => .isTrue trivial
  | s, e :: rest =>
    have : Decidable (Along step ok (step s e) rest) := decidableAlong _ rest
    inferInstanceAs (Decidable (ok s e ∧ Along step ok (step s e) rest))

theorem Along.imp {ok ok' : σ → ε → Prop} {s : σ} {events : List ε}
    (weaker : ∀ s e, ok s e → ok' s e) (h : Along step ok s events) : Along step ok' s events := by
  induction events generalizing s with
  | nil => trivial
  | cons e rest ih => exact ⟨weaker s e h.1, ih h.2⟩

theorem along_of_forall {ok : ε → Prop} (s : σ) {events : List ε} (h : ∀ e ∈ events, ok e) :
    Along step (fun _ e => ok e) s events := by
  induction events generalizing s with
  | nil => trivial
  | cons e rest ih =>
    exact ⟨h e List.mem_cons_self, ih _ fun d member => h d (List.mem_cons_of_mem _ member)⟩

theorem Along.forall {ok : σ → ε → Prop} {P : ε → Prop} (each : ∀ s e, ok s e → P e) {s : σ}
    {events : List ε} (h : Along step ok s events) : ∀ e ∈ events, P e := by
  induction events generalizing s with
  | nil => simp
  | cons e rest ih =>
    intro d member
    rcases List.mem_cons.mp member with rfl | later
    · exact each s d h.1
    · exact ih h.2 d later

theorem Along.and {ok ok' : σ → ε → Prop} {s : σ} {events : List ε}
    (h : Along step ok s events) (h' : Along step ok' s events) :
    Along step (fun s e => ok s e ∧ ok' s e) s events := by
  induction events generalizing s with
  | nil => trivial
  | cons e rest ih => exact ⟨⟨h.1, h'.1⟩, ih h.2 h'.2⟩

theorem invariant_along {Inv : σ → Prop} {ok : σ → ε → Prop}
    (keep : ∀ s e, Inv s → ok s e → Inv (step s e)) {s : σ} {events : List ε}
    (start : Inv s) (allowed : Along step ok s events) : Inv (run step s events) := by
  induction events generalizing s with
  | nil => exact start
  | cons e rest ih => exact ih (keep s e start allowed.1) allowed.2

theorem invariant_run {Inv : σ → Prop} (keep : ∀ s e, Inv s → Inv (step s e)) {s : σ}
    (start : Inv s) (events : List ε) : Inv (run step s events) := by
  induction events generalizing s with
  | nil => exact start
  | cons e rest ih => exact ih (keep s e start)

/-- An invariant holds before every step. -/
theorem along_invariant {Inv : σ → Prop} (keep : ∀ s e, Inv s → Inv (step s e)) {s : σ}
    (start : Inv s) (events : List ε) : Along step (fun s _ => Inv s) s events := by
  induction events generalizing s with
  | nil => trivial
  | cons e rest ih => exact ⟨start, ih (keep s e start)⟩

/-- Steps may assume an invariant that the allowed steps keep. -/
theorem Along.with_invariant {Inv : σ → Prop} {ok : σ → ε → Prop}
    (keep : ∀ s e, Inv s → ok s e → Inv (step s e)) {s : σ} {events : List ε}
    (start : Inv s) (allowed : Along step ok s events) :
    Along step (fun s e => Inv s ∧ ok s e) s events := by
  induction events generalizing s with
  | nil => trivial
  | cons e rest ih => exact ⟨⟨start, allowed.1⟩, ih (keep s e start allowed.1) allowed.2⟩

/-- When a step keeps a property exactly if it meets a condition, a run keeps it exactly if all its
steps do. -/
theorem run_iff_along {Inv Good : σ → Prop} {legal ok : σ → ε → Prop}
    (keep : ∀ s e, Inv s → legal s e → Inv (step s e))
    (one : ∀ s e, Inv s → legal s e → (Good (step s e) ↔ Good s ∧ ok s e))
    {s : σ} {events : List ε} (start : Inv s) (allowed : Along step legal s events) :
    Good (run step s events) ↔ Good s ∧ Along step ok s events := by
  induction events generalizing s with
  | nil => simp [run, Along]
  | cons e rest ih =>
    rw [run, ih (keep s e start allowed.1) allowed.2, one s e start allowed.1, and_assoc]
    rfl

/-! ### Progress -/

/-- What every step of one kind brings down, and no other step brings up, is used up by enough of
them, whatever comes in between. -/
theorem rank_run {Inv : σ → Prop} (rank : σ → Nat) (own : ε → Bool)
    (keep : ∀ s e, Inv s → Inv (step s e))
    (down : ∀ s e, Inv s → rank (step s e) ≤ rank s - if own e then 1 else 0)
    {s : σ} (start : Inv s) (events : List ε) :
    rank (run step s events) ≤ rank s - events.countP own := by
  induction events generalizing s with
  | nil => exact Nat.le_refl _
  | cons e rest ih =>
    have later := ih (keep s e start)
    have first := down s e start
    rw [run, List.countP_cons]
    omega

/-- The same where the rank counts only until a goal is reached, which need not last. -/
theorem reaches {Inv : σ → Prop} (Goal : σ → Prop) (rank : σ → Nat) (own : ε → Bool)
    (keep : ∀ s e, Inv s → Inv (step s e))
    (down : ∀ s e, Inv s → ¬ Goal s → rank (step s e) ≤ rank s - if own e then 1 else 0)
    (last : ∀ s, Inv s → rank s = 0 → Goal s) {s : σ} (start : Inv s) {events : List ε}
    (enough : rank s ≤ events.countP own) :
    ∃ before after, events = before ++ after ∧ Goal (run step s before) := by
  induction events generalizing s with
  | nil => exact ⟨[], [], rfl, last s start (Nat.le_zero.mp enough)⟩
  | cons e rest ih =>
    by_cases reached : Goal s
    · exact ⟨[], e :: rest, rfl, reached⟩
    · have first := down s e start reached
      rw [List.countP_cons] at enough
      obtain ⟨before, after, rfl, goal⟩ := ih (keep s e start) (by omega)
      exact ⟨e :: before, after, rfl, goal⟩

/-! ### Two machines -/

section Simulation

variable {τ δ : Type*} {step' : τ → δ → τ} {f : σ → τ} {g : ε → δ}

/-- A map that commutes with every step commutes with every run. -/
theorem run_map (commutes : ∀ s e, f (step s e) = step' (f s) (g e)) (s : σ) (events : List ε) :
    f (run step s events) = run step' (f s) (events.map g) := by
  induction events generalizing s with
  | nil => rfl
  | cons e rest ih => rw [run, ih, commutes, List.map_cons, run]

theorem along_map {ok : τ → δ → Prop} (commutes : ∀ s e, f (step s e) = step' (f s) (g e)) {s : σ}
    {events : List ε} (h : Along step' ok (f s) (events.map g)) :
    Along step (fun s e => ok (f s) (g e)) s events := by
  induction events generalizing s with
  | nil => trivial
  | cons e rest ih =>
    refine ⟨h.1, ih ?_⟩
    rw [commutes]
    exact h.2

end Simulation

end Machine
