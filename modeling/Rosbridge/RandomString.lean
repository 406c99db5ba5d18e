import Rosbridge.Json
import Rosbridge.Library.Machine

/-!
# Random strings (`random_string`, `unique`)

The distribution that `random_string` draws from is a `thread_local static`: it is made in the first
call of a thread, with the bounds that the alphabet of that call gives, and all later calls draw from
it, whatever their alphabet is. What the generator yields is an oracle: `outcome k` is what the `k`-th
`pick(rg)` of the thread returns.
-/

namespace Rosbridge

namespace RandomString

/-- `pick` is the upper bound of the distribution, once there is one. -/
structure Thread where
  pick : Option Nat := none
  drawn : Nat := 0

structure Call where
  length : Nat
  chars : Bytes

/-- `chars.size() - 1`, in `size_t`. -/
def bound (chars : Bytes) : Nat := if chars.isEmpty then 2 ^ 64 - 1 else chars.length - 1

/-- `chars[pos]`: behind the last character there is a null, and beyond it nothing is defined. -/
def index (chars : Bytes) (pos : Nat) : Option UInt8 :=
  if pos = chars.length then some 0 else chars[pos]?

/-- `while(length--) s += chars[pick(rg)];` -/
def append (outcome : Nat → Nat) (chars : Bytes) : Nat → Nat → Bytes → Option Bytes
  | 0, _, s => some s
  | length + 1, drawn, s => do
    let c ← index chars (outcome drawn)
    append outcome chars length (drawn + 1) (s ++ [c])

def next (t : Thread) (c : Call) : Thread where
  pick := some (t.pick.getD (bound c.chars))
  drawn := t.drawn + c.length

end RandomString

open RandomString

def random_string (outcome : Nat → Nat) (t : Thread) (c : Call) : Option Bytes × Thread :=
  (append outcome c.chars c.length t.drawn [], next t c)

def alphabet : Bytes := ascii "0123456789abcdefghijklmnopqrstuvwxyz"

def unique (outcome : Nat → Nat) (t : Thread) (timestamp : Bytes) (random_size : Nat) :
    Option Bytes × Thread :=
  let (s, t) := random_string outcome t ⟨random_size, alphabet⟩
  (s.map fun s => timestamp ++ ascii "-" ++ s, t)

namespace RandomString

/-- The outcomes that a call draws are in the range of the distribution. -/
def InRange (outcome : Nat → Nat) (t : Thread) (c : Call) : Prop :=
  ∀ k, k < c.length → outcome (t.drawn + k) ≤ t.pick.getD (bound c.chars)

/-- A call indexes its own alphabet only, and returns a string of its length over it. -/
def Respects (outcome : Nat → Nat) (t : Thread) (c : Call) : Prop :=
  (∀ k, k < c.length → outcome (t.drawn + k) < c.chars.length) ∧
    ∃ s, (random_string outcome t c).1 = some s ∧ s.length = c.length ∧ ∀ x ∈ s, x ∈ c.chars

/-! ### One call -/

theorem append_inside {outcome : Nat → Nat} {chars : Bytes} (length drawn : Nat) (s : Bytes)
    (inside : ∀ k, k < length → outcome (drawn + k) < chars.length) :
    ∃ new, append outcome chars length drawn s = some (s ++ new) ∧ new.length = length ∧
      ∀ x ∈ new, x ∈ chars := by
  induction length generalizing drawn s with
  | zero => exact ⟨[], by simp [append]⟩
  | succ length ih =>
    have here : outcome drawn < chars.length := inside 0 (Nat.succ_pos _)
    obtain ⟨new, appended, size, members⟩ := ih (drawn + 1) (s ++ [chars[outcome drawn]]) fun k below => by
      have later := inside (k + 1) (Nat.succ_lt_succ below)
      rwa [show drawn + 1 + k = drawn + (k + 1) by omega]
    have found : index chars (outcome drawn) = some chars[outcome drawn] := by
      rw [index, if_neg (by omega), List.getElem?_eq_getElem here]
    refine ⟨chars[outcome drawn] :: new, ?_, by rw [List.length_cons, size], ?_⟩
    · rw [append, found]
      simpa using appended
    · intro x member
      rcases List.mem_cons.mp member with rfl | rest
      · exact List.getElem_mem here
      · exact members x rest

theorem respects_iff {outcome : Nat → Nat} {t : Thread} {c : Call} :
    Respects outcome t c ↔ ∀ k, k < c.length → outcome (t.drawn + k) < c.chars.length := by
  constructor
  · exact And.left
  · intro inside
    obtain ⟨s, appended, size, members⟩ := append_inside c.length t.drawn [] inside
    exact ⟨inside, s, appended, size, members⟩

/-- With an alphabet that the bound is inside of, whatever is drawn is inside. -/
theorem respects_of_range {outcome : Nat → Nat} {t : Thread} {c : Call}
    (inside : 0 < c.length → t.pick.getD (bound c.chars) < c.chars.length) (range : InRange outcome t c) :
    Respects outcome t c := by
  refine respects_iff.mpr fun k below => ?_
  have drawn := range k below
  have room := inside (by omega)
  omega

/-! ### A thread -/

theorem bound_lt {chars : Bytes} (nonempty : chars ≠ []) : bound chars + 1 = chars.length := by
  have size := List.length_pos_iff.mpr nonempty
  rw [bound, if_neg (by simpa using nonempty)]
  omega

/-- The distribution keeps the bounds that it was made with. -/
theorem pick_next {t : Thread} {b : Nat} (made : t.pick = some b) (c : Call) : (next t c).pick = some b := by
  simp [next, made]

theorem respects_along {outcome : Nat → Nat} {t : Thread} {b : Nat} (made : t.pick = some b)
    {calls : List Call} (inside : ∀ c ∈ calls, 0 < c.length → b < c.chars.length)
    (range : Machine.Along next (InRange outcome) t calls) :
    Machine.Along next (Respects outcome) t calls := by
  induction calls generalizing t with
  | nil => trivial
  | cons c rest ih =>
    refine ⟨respects_of_range ?_ range.1, ih (pick_next made c) ?_ range.2⟩
    · rw [made]
      exact inside c List.mem_cons_self
    · exact fun d member => inside d (List.mem_cons_of_mem _ member)

theorem range_along {t : Thread} {b : Nat} (made : t.pick = some b) (calls : List Call) :
    Machine.Along next (InRange fun _ => b) t calls := by
  induction calls generalizing t with
  | nil => trivial
  | cons c rest ih =>
    refine ⟨fun k _ => ?_, ih (pick_next made c)⟩
    rw [made]
    exact Nat.le_refl b

/-- Whatever is drawn, every call of a thread respects its alphabet exactly when no call that draws
has a shorter alphabet than the first call of the thread. -/
theorem random_string_respects_iff (calls : List Call) (nonempty : ∀ c ∈ calls, c.chars ≠ []) :
    (∀ outcome, Machine.Along next (InRange outcome) {} calls →
        Machine.Along next (Respects outcome) {} calls) ↔
      ∀ first, calls.head? = some first →
        ∀ c ∈ calls, 0 < c.length → first.chars.length ≤ c.chars.length := by
  cases calls with
  | nil => simp [Machine.Along]
  | cons first rest =>
    have size := bound_lt (nonempty first List.mem_cons_self)
    have made : (next {} first).pick = some (bound first.chars) := rfl
    simp only [List.head?_cons, Option.some.injEq, forall_eq']
    constructor
    · intro respects c member draws
      have range : Machine.Along next (InRange fun _ => bound first.chars) {} (first :: rest) :=
        ⟨fun k _ => Nat.le_refl _, range_along made rest⟩
      have inside := (respects _ range).forall
        (P := fun c => 0 < c.length → bound first.chars < c.chars.length)
        (fun t c respected draws => respected.1 0 draws) c member draws
      omega
    · intro longer outcome range
      have inside : ∀ c ∈ first :: rest, 0 < c.length → bound first.chars < c.chars.length := by
        intro c member draws
        have enough := longer c member draws
        omega
      refine ⟨respects_of_range (inside first List.mem_cons_self) range.1, ?_⟩
      exact respects_along made (fun c member => inside c (List.mem_cons_of_mem _ member)) range.2

/-- An identifier, and then words over longer alphabets. -/
def lengthening : List Call := [⟨4, alphabet⟩, ⟨0, ascii "ab"⟩, ⟨8, alphabet ++ ascii "ABCDEF"⟩]

theorem random_string_respects_lengthening :
    Machine.Along next (Respects fun _ => 35) {} lengthening := by
  have range : Machine.Along next (InRange fun _ => 35) {} lengthening :=
    ⟨fun k _ => Nat.le_refl _, fun k _ => Nat.le_refl _, fun k _ => Nat.le_refl _, trivial⟩
  exact (random_string_respects_iff lengthening (by simp [lengthening, alphabet, ascii])).mpr
    (by decide) _ range

/-- An identifier, and then a word over two letters: the generator may yield the last of the 36. -/
def shortening : List Call := [⟨4, alphabet⟩, ⟨1, ascii "ab"⟩]

theorem shortening_leaves_alphabet :
    Machine.Along next (InRange fun _ => 35) {} shortening ∧
      ¬ Machine.Along next (Respects fun _ => 35) {} shortening ∧
      (random_string (fun _ => 35) (next {} ⟨4, alphabet⟩) ⟨1, ascii "ab"⟩).1 = none := by
  refine ⟨⟨fun k _ => Nat.le_refl _, fun k _ => Nat.le_refl _, trivial⟩, ?_, by decide⟩
  intro respects
  have inside : 35 < 2 := respects.2.1.1 0 (by decide)
  omega

/-- The only alphabet that the library uses is the default one. -/
theorem unique_eq {outcome : Nat → Nat} {t : Thread} (timestamp : Bytes) {random_size : Nat}
    (default : t.pick.getD (bound alphabet) < alphabet.length)
    (range : InRange outcome t ⟨random_size, alphabet⟩) :
    ∃ s, (unique outcome t timestamp random_size).1 = some (timestamp ++ ascii "-" ++ s) ∧
      s.length = random_size ∧ (∀ x ∈ s, x ∈ alphabet) ∧
      (unique outcome t timestamp random_size).2.pick.getD (bound alphabet) < alphabet.length := by
  obtain ⟨-, s, returned, size, members⟩ := respects_of_range (fun _ => default) range
  refine ⟨s, ?_, size, members, default⟩
  exact congrArg (Option.map fun s => timestamp ++ ascii "-" ++ s) returned

end RandomString

end Rosbridge
