import Mathlib.Data.List.Forall2
import Rosbridge.Library.Machine

/-!
# UTF-8, byte after byte

The first byte of a character tells how many bytes follow, and in which range each of them lies. A reader
that remembers the ranges to come accepts the encodings of sequences of characters and no other text.
-/

namespace Utf8

structure Range where
  low : Nat
  high : Nat
deriving DecidableEq

def Range.Has (r : Range) (b : UInt8) : Prop := r.low ≤ b.toNat ∧ b.toNat ≤ r.high

instance (r : Range) (b : UInt8) : Decidable (r.Has b) := by unfold Range.Has; infer_instance

def tail : Range := ⟨0x80, 0xbf⟩

/-- What follows the first byte of a character. -/
def follow (b : UInt8) : Option (List Range) :=
  if b.toNat ≤ 0x7f then some []
  else if b.toNat < 0xc2 then none
  else if b.toNat ≤ 0xdf then some [tail]
  else if b.toNat = 0xe0 then some [⟨0xa0, 0xbf⟩, tail]
  else if b.toNat = 0xed then some [⟨0x80, 0x9f⟩, tail]
  else if b.toNat ≤ 0xef then some [tail, tail]
  else if b.toNat = 0xf0 then some [⟨0x90, 0xbf⟩, tail, tail]
  else if b.toNat ≤ 0xf3 then some [tail, tail, tail]
  else if b.toNat = 0xf4 then some [⟨0x80, 0x8f⟩, tail, tail]
  else none

/-- The ranges to come, and none where no text goes on. -/
abbrev Pending := Option (List Range)

def next : Pending → UInt8 → Pending
  | none, _ => none
  | some [], b => follow b
  | some (r :: rs), b => if r.Has b then some rs else none

abbrev read (s : Pending) (text : List UInt8) : Pending := Machine.run next s text

def Valid (text : List UInt8) : Prop := ∃ cs : List Char, text = cs.flatMap String.utf8EncodeChar

/-! ### One character -/

def Fits (rs : List Range) (bs : List UInt8) : Prop := List.Forall₂ Range.Has rs bs

theorem read_none (text : List UInt8) : read none text = none := by
  induction text with
  | nil => rfl
  | cons b rest ih => exact ih

theorem read_append (s : Pending) (text rest : List UInt8) : read s (text ++ rest) = read (read s text) rest :=
  Machine.run_append _ _ _

theorem read_fits {rs : List Range} {bs : List UInt8} (fits : Fits rs bs) : read (some rs) bs = some [] := by
  induction fits with
  | nil => rfl
  | cons has rest ih =>
    rw [read, Machine.run, next, if_pos has]
    exact ih

/-- The rest of a character comes first. -/
theorem fits_of_read {rs : List Range} {text : List UInt8} (accepted : read (some rs) text = some []) :
    ∃ bs rest, text = bs ++ rest ∧ Fits rs bs ∧ read (some []) rest = some [] := by
  induction rs generalizing text with
  | nil => exact ⟨[], text, rfl, .nil, accepted⟩
  | cons r rs ih =>
    cases text with
    | nil => cases accepted
    | cons b text =>
      rw [read, Machine.run, next] at accepted
      split at accepted
      · rename_i has
        obtain ⟨bs, rest, rfl, fits, home⟩ := ih accepted
        exact ⟨b :: bs, rest, rfl, .cons has fits, home⟩
      · rw [show Machine.run next none text = none from read_none text] at accepted
        cases accepted

theorem scalar (c : Char) : c.val.toNat < 0xd800 ∨ 0xdfff < c.val.toNat ∧ c.val.toNat < 0x110000 := c.valid

inductive Leads (b : UInt8) : List Range → Prop where
  | one (high : b.toNat ≤ 0x7f) : Leads b []
  | two (low : 0xc2 ≤ b.toNat) (high : b.toNat ≤ 0xdf) : Leads b [tail]
  | e0 (here : b.toNat = 0xe0) : Leads b [⟨0xa0, 0xbf⟩, tail]
  | ed (here : b.toNat = 0xed) : Leads b [⟨0x80, 0x9f⟩, tail]
  | three (low : 0xe1 ≤ b.toNat) (high : b.toNat ≤ 0xef) (other : b.toNat ≠ 0xed) : Leads b [tail, tail]
  | f0 (here : b.toNat = 0xf0) : Leads b [⟨0x90, 0xbf⟩, tail, tail]
  | four (low : 0xf1 ≤ b.toNat) (high : b.toNat ≤ 0xf3) : Leads b [tail, tail, tail]
  | f4 (here : b.toNat = 0xf4) : Leads b [⟨0x80, 0x8f⟩, tail, tail]

theorem Leads.follow {b : UInt8} {rs : List Range} (leads : Leads b rs) : follow b = some rs := by
  cases leads with
  | one high => rw [Utf8.follow, if_pos high]
  | two low high => rw [Utf8.follow, if_neg (by omega), if_neg (by omega), if_pos high]
  | e0 here => simp [Utf8.follow, here]
  | ed here => simp [Utf8.follow, here]
  | three low high other =>
    rw [Utf8.follow, if_neg (by omega), if_neg (by omega), if_neg (by omega), if_neg (by omega), if_neg other,
      if_pos high]
  | f0 here => simp [Utf8.follow, here]
  | four low high =>
    rw [Utf8.follow, if_neg (by omega), if_neg (by omega), if_neg (by omega), if_neg (by omega),
      if_neg (by omega), if_neg (by omega), if_neg (by omega), if_pos high]
  | f4 here => simp [Utf8.follow, here]

theorem leads_of_follow {b : UInt8} {rs : List Range} (found : follow b = some rs) : Leads b rs := by
  unfold follow at found
  split_ifs at found <;> obtain rfl := Option.some.inj found
  · exact .one (by assumption)
  · exact .two (by omega) (by assumption)
  · exact .e0 (by assumption)
  · exact .ed (by assumption)
  · exact .three (by omega) (by assumption) (by assumption)
  · exact .f0 (by assumption)
  · exact .four (by omega) (by assumption)
  · exact .f4 (by assumption)

theorem toNat_byte {n : Nat} (small : n < 256) : (UInt8.ofNat n).toNat = n := by simpa using small

theorem has_byte {low high n : Nat} (small : n < 256) (least : low ≤ n) (most : n ≤ high) :
    Range.Has ⟨low, high⟩ (UInt8.ofNat n) := by
  rw [Range.Has, toNat_byte small]
  exact ⟨least, most⟩

theorem has_tail (n : Nat) : tail.Has (UInt8.ofNat (n % 0x40 + 0x80)) := by
  apply has_byte <;> omega

theorem encode_fits (c : Char) : ∃ b bs rs, String.utf8EncodeChar c = b :: bs ∧ Leads b rs ∧ Fits rs bs := by
  have scalar := scalar c
  unfold String.utf8EncodeChar
  generalize c.val.toNat = v at scalar
  dsimp only
  split
  · refine ⟨_, _, _, rfl, .one ?_, .nil⟩
    rwa [toNat_byte (by omega)]
  split
  · refine ⟨_, _, _, rfl, .two ?_ ?_, .cons (has_tail _) .nil⟩ <;> rw [toNat_byte (by omega)] <;> omega
  split
  · have tails : Fits [tail] [UInt8.ofNat (v % 0x40 + 0x80)] := .cons (has_tail _) .nil
    have lead : (UInt8.ofNat (v / 4096 % 0x10 + 0xe0)).toNat = v / 4096 % 0x10 + 0xe0 := toNat_byte (by omega)
    by_cases low : v < 0x1000
    · refine ⟨_, _, _, rfl, .e0 (by omega), .cons (has_byte ?_ ?_ ?_) tails⟩ <;> omega
    by_cases high : 0xd000 ≤ v ∧ v < 0xe000
    · refine ⟨_, _, _, rfl, .ed (by omega), .cons (has_byte ?_ ?_ ?_) tails⟩ <;> omega
    · exact ⟨_, _, _, rfl, .three (by omega) (by omega) (by omega), .cons (has_tail _) tails⟩
  · have tails : Fits [tail, tail] [UInt8.ofNat (v / 64 % 0x40 + 0x80), UInt8.ofNat (v % 0x40 + 0x80)] :=
      .cons (has_tail _) (.cons (has_tail _) .nil)
    have lead : (UInt8.ofNat (v / 262144 % 0x08 + 0xf0)).toNat = v / 262144 % 0x08 + 0xf0 := toNat_byte (by omega)
    by_cases low : v < 0x40000
    · refine ⟨_, _, _, rfl, .f0 (by omega), .cons (has_byte ?_ ?_ ?_) tails⟩ <;> omega
    by_cases high : 0x100000 ≤ v
    · refine ⟨_, _, _, rfl, .f4 (by omega), .cons (has_byte ?_ ?_ ?_) tails⟩ <;> omega
    · exact ⟨_, _, _, rfl, .four (by omega) (by omega), .cons (has_tail _) tails⟩

/-- The character with that number. -/
theorem exists_char {v : Nat} (scalar : v < 0xd800 ∨ 0xdfff < v ∧ v < 0x110000) : ∃ c : Char, c.val.toNat = v :=
  ⟨Char.ofNatAux v scalar, rfl⟩

theorem byte_eq {b : UInt8} {n : Nat} (same : b.toNat = n) : UInt8.ofNat n = b := by
  rw [← same]
  exact UInt8.ofNat_toNat

theorem exists_two {b b₁ : UInt8} (low : 0xc2 ≤ b.toNat) (high : b.toNat ≤ 0xdf) (has₁ : tail.Has b₁) :
    ∃ c : Char, String.utf8EncodeChar c = [b, b₁] := by
  obtain ⟨low₁, high₁⟩ : 0x80 ≤ b₁.toNat ∧ b₁.toNat ≤ 0xbf := has₁
  obtain ⟨c, value⟩ := exists_char (v := (b.toNat - 0xc0) * 64 + (b₁.toNat - 0x80)) (by omega)
  refine ⟨c, ?_⟩
  unfold String.utf8EncodeChar
  dsimp only
  rw [if_neg (by omega), if_pos (by omega), byte_eq (b := b) (by omega), byte_eq (b := b₁) (by omega)]

/-- An overlong text and a surrogate are excluded by the range of the second byte. -/
theorem exists_three {b b₁ b₂ : UInt8} (low : 0xe0 ≤ b.toNat) (high : b.toNat ≤ 0xef) (has₁ : tail.Has b₁)
    (has₂ : tail.Has b₂) (overlong : b.toNat = 0xe0 → 0xa0 ≤ b₁.toNat) (surrogate : b.toNat = 0xed → b₁.toNat ≤ 0x9f) :
    ∃ c : Char, String.utf8EncodeChar c = [b, b₁, b₂] := by
  obtain ⟨low₁, high₁⟩ : 0x80 ≤ b₁.toNat ∧ b₁.toNat ≤ 0xbf := has₁
  obtain ⟨low₂, high₂⟩ : 0x80 ≤ b₂.toNat ∧ b₂.toNat ≤ 0xbf := has₂
  obtain ⟨c, value⟩ := exists_char
    (v := (b.toNat - 0xe0) * 4096 + (b₁.toNat - 0x80) * 64 + (b₂.toNat - 0x80)) (by omega)
  refine ⟨c, ?_⟩
  unfold String.utf8EncodeChar
  dsimp only
  rw [if_neg (by omega), if_neg (by omega), if_pos (by omega), byte_eq (b := b) (by omega),
    byte_eq (b := b₁) (by omega), byte_eq (b := b₂) (by omega)]

theorem exists_four {b b₁ b₂ b₃ : UInt8} (low : 0xf0 ≤ b.toNat) (high : b.toNat ≤ 0xf4) (has₁ : tail.Has b₁)
    (has₂ : tail.Has b₂) (has₃ : tail.Has b₃) (overlong : b.toNat = 0xf0 → 0x90 ≤ b₁.toNat)
    (large : b.toNat = 0xf4 → b₁.toNat ≤ 0x8f) : ∃ c : Char, String.utf8EncodeChar c = [b, b₁, b₂, b₃] := by
  obtain ⟨low₁, high₁⟩ : 0x80 ≤ b₁.toNat ∧ b₁.toNat ≤ 0xbf := has₁
  obtain ⟨low₂, high₂⟩ : 0x80 ≤ b₂.toNat ∧ b₂.toNat ≤ 0xbf := has₂
  obtain ⟨low₃, high₃⟩ : 0x80 ≤ b₃.toNat ∧ b₃.toNat ≤ 0xbf := has₃
  obtain ⟨c, value⟩ := exists_char (v := (b.toNat - 0xf0) * 262144 + (b₁.toNat - 0x80) * 4096 +
    (b₂.toNat - 0x80) * 64 + (b₃.toNat - 0x80)) (by omega)
  refine ⟨c, ?_⟩
  unfold String.utf8EncodeChar
  dsimp only
  rw [if_neg (by omega), if_neg (by omega), if_neg (by omega), byte_eq (b := b) (by omega),
    byte_eq (b := b₁) (by omega), byte_eq (b := b₂) (by omega), byte_eq (b := b₃) (by omega)]

theorem exists_encode {b : UInt8} {bs : List UInt8} {rs : List Range} (leads : Leads b rs) (fits : Fits rs bs) :
    ∃ c : Char, String.utf8EncodeChar c = b :: bs := by
  have within {low high : Nat} {b : UInt8} (has : Range.Has ⟨low, high⟩ b) (least : 0x80 ≤ low)
      (most : high ≤ 0xbf) : tail.Has b := ⟨Nat.le_trans least has.1, Nat.le_trans has.2 most⟩
  cases leads with
  | one high =>
    cases fits
    obtain ⟨c, value⟩ := exists_char (v := b.toNat) (by omega)
    refine ⟨c, ?_⟩
    unfold String.utf8EncodeChar
    dsimp only
    rw [value, if_pos high, byte_eq rfl]
  | two low high =>
    obtain _ | ⟨has₁, _ | _⟩ := fits
    exact exists_two low high has₁
  | e0 here =>
    obtain _ | ⟨has₁, _ | ⟨has₂, _ | _⟩⟩ := fits
    exact exists_three (by omega) (by omega) (within has₁ (by decide) (by decide)) has₂ (fun _ => has₁.1) (by omega)
  | ed here =>
    obtain _ | ⟨has₁, _ | ⟨has₂, _ | _⟩⟩ := fits
    exact exists_three (by omega) (by omega) (within has₁ (by decide) (by decide)) has₂ (by omega) fun _ => has₁.2
  | three low high other =>
    obtain _ | ⟨has₁, _ | ⟨has₂, _ | _⟩⟩ := fits
    exact exists_three (by omega) high has₁ has₂ (by omega) (by omega)
  | f0 here =>
    obtain _ | ⟨has₁, _ | ⟨has₂, _ | ⟨has₃, _ | _⟩⟩⟩ := fits
    exact exists_four (by omega) (by omega) (within has₁ (by decide) (by decide)) has₂ has₃ (fun _ => has₁.1)
      (by omega)
  | four low high =>
    obtain _ | ⟨has₁, _ | ⟨has₂, _ | ⟨has₃, _ | _⟩⟩⟩ := fits
    exact exists_four (by omega) (by omega) has₁ has₂ has₃ (by omega) (by omega)
  | f4 here =>
    obtain _ | ⟨has₁, _ | ⟨has₂, _ | ⟨has₃, _ | _⟩⟩⟩ := fits
    exact exists_four (by omega) (by omega) (within has₁ (by decide) (by decide)) has₂ has₃ (by omega)
      fun _ => has₁.2

/-! ### Texts -/

theorem read_encode (c : Char) (rest : List UInt8) :
    read (some []) (String.utf8EncodeChar c ++ rest) = read (some []) rest := by
  obtain ⟨b, bs, rs, encoded, leads, fits⟩ := encode_fits c
  have first : read (some []) (b :: bs) = some [] := by
    rw [read, Machine.run, next, leads.follow]
    exact read_fits fits
  rw [read_append, encoded, first]

theorem valid_of_read {text : List UInt8} (accepted : read (some []) text = some []) : Valid text := by
  induction length : text.length using Nat.strongRecOn generalizing text with
  | ind n ih =>
    cases text with
    | nil => exact ⟨[], rfl⟩
    | cons b text =>
      cases follows : follow b with
      | none =>
        rw [read, Machine.run, next, follows] at accepted
        rw [show Machine.run next none text = none from read_none text] at accepted
        cases accepted
      | some rs =>
        rw [read, Machine.run, next, follows] at accepted
        obtain ⟨bs, rest, rfl, fits, home⟩ := fits_of_read accepted
        obtain ⟨c, encoded⟩ := exists_encode (leads_of_follow follows) fits
        obtain ⟨cs, rfl⟩ := ih _ (by simp at length; omega) home rfl
        exact ⟨c :: cs, by rw [List.flatMap_cons, encoded]; rfl⟩

theorem valid_iff (text : List UInt8) : Valid text ↔ read (some []) text = some [] := by
  refine ⟨?_, valid_of_read⟩
  rintro ⟨cs, rfl⟩
  induction cs with
  | nil => rfl
  | cons c cs ih =>
    rw [List.flatMap_cons, read_encode]
    exact ih

instance (text : List UInt8) : Decidable (Valid text) := decidable_of_iff _ (valid_iff text).symm

def Open (s : Pending) : Prop := ∀ rs, s = some rs → ∀ r ∈ rs, r.low ≤ r.high ∧ r.high < 256

theorem open_follow (b : UInt8) : Open (follow b) := by
  intro rs found r member
  cases leads_of_follow found with
  | one => cases member
  | _ =>
    simp only [List.mem_cons, List.not_mem_nil, or_false] at member
    rcases member with rfl | rfl | rfl <;> decide

theorem open_next {s : Pending} (h : Open s) (b : UInt8) : Open (next s b) := by
  unfold next
  split
  · exact h
  · exact open_follow b
  · split
    · intro rs same r member
      obtain rfl := Option.some.inj same
      exact h _ rfl r (List.mem_cons_of_mem _ member)
    · intro rs same
      cases same

theorem exists_fits {rs : List Range} (h : Open (some rs)) : ∃ bs, Fits rs bs := by
  induction rs with
  | nil => exact ⟨[], .nil⟩
  | cons r rs ih =>
    obtain ⟨least, small⟩ := h _ rfl r List.mem_cons_self
    have others : Open (some rs) := by
      intro _ same r member
      obtain rfl := Option.some.inj same
      exact h _ rfl r (List.mem_cons_of_mem _ member)
    obtain ⟨bs, fits⟩ := ih others
    exact ⟨UInt8.ofNat r.low :: bs, .cons (has_byte (by omega) (Nat.le_refl _) least) fits⟩

/-- A reader gives a text up where no valid text begins with it. -/
theorem read_ne_none_iff (text : List UInt8) :
    read (some []) text ≠ none ↔ ∃ rest, Valid (text ++ rest) := by
  constructor
  · intro alive
    have home : Open (some []) := by
      intro rs same r member
      obtain rfl := Option.some.inj same
      cases member
    have opens : Open (read (some []) text) := by
      apply Machine.invariant_run
      · intro s b before
        exact open_next before b
      · exact home
    obtain ⟨rs, waits⟩ := Option.ne_none_iff_exists'.mp alive
    rw [waits] at opens
    obtain ⟨bs, fits⟩ := exists_fits opens
    exact ⟨bs, (valid_iff _).mpr (by rw [read_append, waits, read_fits fits])⟩
  · rintro ⟨rest, valid⟩ dead
    rw [valid_iff, read_append, dead, read_none] at valid
    cases valid

/-! ### Numbers -/

def leading (b : UInt8) : Nat :=
  if b.toNat ≤ 0x7f then b.toNat
  else if b.toNat ≤ 0xdf then b.toNat - 0xc0
  else if b.toNat ≤ 0xef then b.toNat - 0xe0
  else b.toNat - 0xf0

def continued (v : Nat) (b : UInt8) : Nat := v * 64 + (b.toNat - 0x80)

theorem continued_byte (v n : Nat) : continued v (UInt8.ofNat (n % 0x40 + 0x80)) = v * 64 + n % 0x40 := by
  have value : (UInt8.ofNat (n % 0x40 + 0x80)).toNat = n % 0x40 + 0x80 := toNat_byte (by omega)
  have part : (UInt8.ofNat (n % 0x40 + 0x80)).toNat - 0x80 = n % 0x40 := by omega
  exact congrArg (v * 64 + ·) part

theorem number_encode (c : Char) {b : UInt8} {bs : List UInt8} (encoded : String.utf8EncodeChar c = b :: bs) :
    bs.foldl continued (leading b) = c.val.toNat := by
  have scalar := scalar c
  unfold String.utf8EncodeChar at encoded
  generalize c.val.toNat = v at scalar encoded ⊢
  dsimp only at encoded
  split at encoded
  · obtain ⟨rfl, rfl⟩ := List.cons.inj encoded
    rw [List.foldl_nil, leading, toNat_byte (by omega), if_pos (by omega)]
  split at encoded
  · obtain ⟨rfl, rfl⟩ := List.cons.inj encoded
    have lead : leading (UInt8.ofNat (v / 64 % 0x20 + 0xc0)) = v / 64 % 0x20 := by
      rw [leading, toNat_byte (by omega), if_neg (by omega), if_pos (by omega), Nat.add_sub_cancel]
    simp only [List.foldl_cons, List.foldl_nil, continued_byte, lead]
    omega
  split at encoded
  · obtain ⟨rfl, rfl⟩ := List.cons.inj encoded
    have lead : leading (UInt8.ofNat (v / 4096 % 0x10 + 0xe0)) = v / 4096 % 0x10 := by
      rw [leading, toNat_byte (by omega), if_neg (by omega), if_neg (by omega), if_pos (by omega), Nat.add_sub_cancel]
    simp only [List.foldl_cons, List.foldl_nil, continued_byte, lead]
    omega
  · obtain ⟨rfl, rfl⟩ := List.cons.inj encoded
    have lead : leading (UInt8.ofNat (v / 262144 % 0x08 + 0xf0)) = v / 262144 % 0x08 := by
      rw [leading, toNat_byte (by omega), if_neg (by omega), if_neg (by omega), if_neg (by omega), Nat.add_sub_cancel]
    simp only [List.foldl_cons, List.foldl_nil, continued_byte, lead]
    omega

theorem le_foldl_continued (bs : List UInt8) (v : Nat) : v ≤ bs.foldl continued v := by
  induction bs generalizing v with
  | nil => exact Nat.le_refl v
  | cons b bs ih =>
    have here : v ≤ continued v b := by
      unfold continued
      omega
    rw [List.foldl_cons]
    exact Nat.le_trans here (ih (continued v b))

theorem tail_of_fits {b : UInt8} {bs : List UInt8} {rs : List Range} (leads : Leads b rs) (fits : Fits rs bs) :
    ∀ c ∈ bs, tail.Has c := by
  have within : ∀ r ∈ rs, 0x80 ≤ r.low ∧ r.high ≤ 0xbf := by
    intro r member
    cases leads with
    | one => cases member
    | _ =>
      simp only [List.mem_cons, List.not_mem_nil, or_false] at member
      rcases member with rfl | rfl | rfl <;> decide
  clear leads
  induction fits with
  | nil => exact fun c member => by cases member
  | cons has rest ih =>
    intro c member
    rcases List.mem_cons.mp member with rfl | later
    · obtain ⟨least, most⟩ := within _ List.mem_cons_self
      exact ⟨Nat.le_trans least has.1, Nat.le_trans has.2 most⟩
    · exact ih (fun r member => within r (List.mem_cons_of_mem _ member)) c later

/-! ### ASCII -/

def Late (s : Pending) : Prop := ∀ rs, s = some rs → ∀ r ∈ rs, 0x80 ≤ r.low

theorem late_home : Late (some []) := by
  intro rs home r member
  obtain rfl := Option.some.inj home
  cases member

theorem late_follow (b : UInt8) : Late (follow b) := by
  intro rs found r member
  cases leads_of_follow found with
  | one => cases member
  | _ =>
    simp only [List.mem_cons, List.not_mem_nil, or_false] at member
    rcases member with rfl | rfl | rfl <;> decide

theorem late_next {s : Pending} (h : Late s) (b : UInt8) : Late (next s b) := by
  unfold next
  split
  · exact h
  · exact late_follow b
  · split
    · intro rs same r member
      obtain rfl := Option.some.inj same
      exact h _ rfl r (List.mem_cons_of_mem _ member)
    · intro rs same
      cases same

theorem late_read {s : Pending} (h : Late s) (text : List UInt8) : Late (read s text) := by
  apply Machine.invariant_run
  · intro s b late
    exact late_next late b
  · exact h

theorem next_ascii {s : Pending} (h : Late s) {b : UInt8} (ascii : b.toNat ≤ 0x7f) :
    next s b = if s = some [] then some [] else none := by
  cases s with
  | none => rfl
  | some rs =>
    cases rs with
    | nil =>
      rw [if_pos rfl]
      exact (Leads.one ascii).follow
    | cons r rs =>
      have least := h _ rfl r List.mem_cons_self
      have out : ¬ r.Has b := fun has => by
        have low := has.1
        omega
      rw [next, if_neg out, if_neg (by simp)]

/-- A character is an ASCII byte, or has none. -/
theorem encode_ascii (c : Char) : c.val.toNat ≤ 0x7f ∧ String.utf8EncodeChar c = [UInt8.ofNat c.val.toNat] ∨
    0x7f < c.val.toNat ∧ ∀ b ∈ String.utf8EncodeChar c, 0x80 ≤ b.toNat := by
  by_cases small : c.val.toNat ≤ 0x7f
  · refine .inl ⟨small, ?_⟩
    unfold String.utf8EncodeChar
    dsimp only
    rw [if_pos small]
  · refine .inr ⟨Nat.lt_of_not_le small, ?_⟩
    obtain ⟨b, bs, rs, encoded, leads, fits⟩ := encode_fits c
    have number := number_encode c encoded
    have tails := tail_of_fits leads fits
    rw [encoded]
    refine List.forall_mem_cons.mpr ⟨?_, fun d member => (tails d member).1⟩
    cases leads with
    | one high =>
      cases fits
      rw [List.foldl_nil, leading, if_pos high] at number
      omega
    | _ => omega

/-- A text of ASCII bytes is one ASCII byte to a reader. -/
theorem read_ascii {s : Pending} (h : Late s) {text : List UInt8} (some_text : text ≠ [])
    (ascii : ∀ b ∈ text, b.toNat ≤ 0x7f) : read s text = if s = some [] then some [] else none := by
  induction text generalizing s with
  | nil => exact absurd rfl some_text
  | cons b rest ih =>
    have first := next_ascii h (ascii b List.mem_cons_self)
    rw [read, Machine.run, first]
    by_cases home : s = some []
    · rw [if_pos home]
      cases rest with
      | nil => rfl
      | cons b' rest =>
        exact ih late_home (by simp) fun c member => ascii c (List.mem_cons_of_mem _ member)
    · rw [if_neg home]
      exact read_none rest

theorem valid_nil : Valid [] := ⟨[], rfl⟩

theorem read_valid {text : List UInt8} (valid : Valid text) (rest : List UInt8) :
    read (some []) (text ++ rest) = read (some []) rest := by
  rw [read_append, (valid_iff text).mp valid]

theorem valid_append {text : List UInt8} (valid : Valid text) (rest : List UInt8) :
    Valid (text ++ rest) ↔ Valid rest := by
  rw [valid_iff, valid_iff, read_valid valid]

/-- Before an ASCII byte no character is left open. -/
theorem read_split {text rest : List UInt8} {b : UInt8} (ascii : b.toNat ≤ 0x7f)
    (alive : read (some []) (text ++ b :: rest) ≠ none) :
    Valid text ∧ read (some []) rest = read (some []) (text ++ b :: rest) := by
  have first := next_ascii (late_read late_home text) ascii
  have whole : read (some []) (text ++ b :: rest) =
      read (if read (some []) text = some [] then some [] else none) rest := by
    rw [read_append, ← first]
    rfl
  rw [whole] at alive ⊢
  by_cases home : read (some []) text = some []
  · rw [if_pos home]
    exact ⟨(valid_iff text).mpr home, rfl⟩
  · rw [if_neg home] at alive
    exact absurd (read_none rest) alive

/-- Texts around an ASCII byte are read each for itself. -/
theorem valid_split {text rest : List UInt8} {b : UInt8} (ascii : b.toNat ≤ 0x7f) :
    Valid (text ++ b :: rest) ↔ Valid text ∧ Valid rest := by
  constructor
  · intro valid
    have accepted := (valid_iff _).mp valid
    obtain ⟨before, behind⟩ := @read_split text rest b ascii (by simp [accepted])
    exact ⟨before, (valid_iff rest).mpr (behind.trans accepted)⟩
  · rintro ⟨before, behind⟩
    rw [valid_append before, valid_iff, read, Machine.run, next, (Leads.one ascii).follow]
    exact (valid_iff rest).mp behind

theorem valid_ascii {text : List UInt8} (ascii : ∀ b ∈ text, b.toNat ≤ 0x7f) : Valid text := by
  by_cases empty : text = []
  · rw [empty]
    exact valid_nil
  · rw [valid_iff, read_ascii late_home empty ascii, if_pos rfl]

/-- A text stays as valid as it was when each byte is replaced by a text that is read like it. -/
theorem valid_flatMap {f : UInt8 → List UInt8} (alike : ∀ s b, Late s → read s (f b) = next s b)
    (text : List UInt8) : Valid (text.flatMap f) ↔ Valid text := by
  have same : ∀ s, Late s → read s (text.flatMap f) = read s text := by
    induction text with
    | nil => exact fun s late => rfl
    | cons b rest ih =>
      intro s late
      rw [List.flatMap_cons, read_append, alike s b late, ih _ (late_next late b)]
      rfl
  rw [valid_iff, valid_iff, same _ late_home]

end Utf8
