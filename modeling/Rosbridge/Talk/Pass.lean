import Rosbridge.Access

/-!
# A pass of the sender loop ends

`talk` goes through the queues once. What producers, destructors, the network and resets do in between
neither makes it longer nor sends it back.
-/

namespace Rosbridge.Talk

variable {M : Type}

/-- At most so many steps of `talk` until the pass is over, with `n` queues. -/
def Pc.left (n : Nat) : Pc M → Nat
  | .active i => 6 * (n - i) + 2
  | .empty i => 6 * (n - i) + 1
  | .next i => 6 * (n - i)
  | .send i _ => 6 * (n - i) - 1
  | .message_sender i _ => 6 * (n - i) - 2
  | .pop i _ _ => 6 * (n - i) - 3
  | _ => 0

theorem Pc.left_le (n : Nat) (pc : Pc M) : pc.left n ≤ 6 * n + 2 := by
  cases pc <;> simp only [left] <;> omega

def Event.isTalk : Event M → Bool
  | .talk _ => true
  | _ => false

namespace State

def left (s : State M) : Nat := s.pc.left s.talkers.length

end State

theorem idle_of_left {s : State M} (h : Inside s) (none : s.left = 0) : s.pc = .idle := by
  unfold State.left at none
  have attached := h.attached
  cases pc : s.pc with
  | idle => rfl
  | undefined => exact absurd pc h.defined
  | active i | empty i =>
    rw [pc] at none
    cases none
  | next i | send i x | message_sender i x | pop i x accepted =>
    rw [pc] at none
    have inside : i < s.talkers.length := attached i (by rw [pc]; rfl)
    simp only [Pc.left] at none
    omega

/-- Every step of `talk` brings the end of the pass nearer. -/
theorem left_talk {s : State M} (h : Inside s) (busy : s.pc ≠ .idle) (accepts : Bool) :
    (talk s accepts).left ≤ s.left - 1 := by
  have attached := h.attached
  unfold talk State.left
  cases pc : s.pc with
  | idle => exact absurd pc busy
  | active i =>
    dsimp only
    split
    · simp only [Pc.left]
      omega
    · exact Nat.zero_le _
  | empty i =>
    dsimp only
    split
    · exact Nat.zero_le _
    · rename_i t found
      have inside : i < s.talkers.length := (List.getElem?_eq_some_iff.mp found).1
      split
      · simp only [Pc.left]
        omega
      · simp only [Pc.left]
        omega
  | next i =>
    have inside : i < s.talkers.length := attached i (by rw [pc]; rfl)
    dsimp only
    split
    · exact Nat.zero_le _
    · simp only [Pc.left]
      omega
  | send i x =>
    have inside : i < s.talkers.length := attached i (by rw [pc]; rfl)
    dsimp only
    split
    · simp only [Pc.left]
      omega
    · simp only [Pc.left]
      omega
  | message_sender i x =>
    have inside : i < s.talkers.length := attached i (by rw [pc]; rfl)
    simp only [Pc.left, List.length_modify]
    omega
  | pop i x accepted =>
    have inside : i < s.talkers.length := attached i (by rw [pc]; rfl)
    dsimp only
    split
    · exact Nat.zero_le _
    · simp only [Pc.left, List.length_set]
      omega
  | undefined => exact absurd pc h.defined

/-- No other step touches the pass. -/
theorem left_other {s : State M} {e : Event M} (busy : s.pc ≠ .idle) (other : e.isTalk = false) :
    (step s e).left = s.left := by
  cases e with
  | talk accepts => cases other
  | attach queue_size head_msg =>
    unfold step attach
    dsimp only
    split
    · rename_i idle _
      exact absurd idle busy
    · rfl
  | resetTalkers =>
    unfold step resetTalkers
    dsimp only
    split
    · rfl
    · split
      · simp [State.left]
      · rfl
  | link c => rfl
  | _ => simp [step, State.left]

def Anytime.isTalk : Anytime M → Bool
  | .event e => e.isTalk
  | .reset _ => false

theorem left_step {s : State M} (h : Inside s) (e : Anytime M) (busy : s.pc ≠ .idle) :
    (Anytime.step s e).left ≤ s.left - if e.isTalk then 1 else 0 := by
  cases e with
  | reset i => simp [Anytime.step, State.left, Anytime.isTalk]
  | event e =>
    cases other : e.isTalk with
    | false =>
      rw [if_neg (by simp [Anytime.isTalk, other])]
      exact Nat.le_of_eq (left_other busy other)
    | true =>
      rw [if_pos (by simp [Anytime.isTalk, other])]
      cases e with
      | talk accepts => exact left_talk h busy accepts
      | _ => cases other

/-- A pass over `n` queues ends within `6 * n + 2` steps of `talk`, whatever happens in between. -/
theorem pass_ends {phase : Phase} {events later : List (Anytime M)}
    (enough : 6 * (Anytime.run (start phase) events).talkers.length + 2 ≤ later.countP Anytime.isTalk) :
    ∃ before after, later = before ++ after ∧
      (Anytime.run (start phase) (events ++ before)).pc = .idle := by
  have inside : Inside (Anytime.run (start phase) events) := inside_run phase events
  obtain ⟨before, after, split, idle⟩ := Machine.reaches (fun s : State M => s.pc = .idle) State.left
    Anytime.isTalk (fun _ e h => inside_step h e) (fun _ e h busy => left_step h e busy)
    (fun _ h none => idle_of_left h none) inside ((Pc.left_le _ _).trans enough)
  refine ⟨before, after, split, ?_⟩
  rw [Anytime.run, Machine.run_append]
  exact idle

/-- A message is pushed and the queue is reset whenever `talk` has taken two steps. -/
def besieged : List (Anytime Serializer) :=
  (List.replicate 4 [.event (.talk true), .event (.talk true), .event (.push 0 (chatter "one" "2")), .reset 0]).flatten

theorem pass_ends_besieged :
    ∃ before after, besieged = before ++ after ∧
      (Anytime.run (start .opened) ([.event (.attach 1 advertise), .event (.talk true)] ++ before)).pc = .idle :=
  pass_ends (by decide +kernel)

end Rosbridge.Talk
