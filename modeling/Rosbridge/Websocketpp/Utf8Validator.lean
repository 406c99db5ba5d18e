import Rosbridge.Json
import Rosbridge.Library.Utf8

/-!
# `utf8_validator.hpp`

The websocket takes a text message only if `validate` accepts it, and checks a text that comes in as it
comes. The states of the table are the ranges that are still to come.
-/

namespace Rosbridge.utf8_validator

def utf8_accept : UInt32 := 0

def utf8_reject : UInt32 := 1

def utf8d : List UInt8 := [
  0, 0, 0, 0, 0, 0, 0, 0, 0, 0, 0, 0, 0, 0, 0, 0, 0, 0, 0, 0, 0, 0, 0, 0, 0, 0, 0, 0, 0, 0, 0, 0, -- 00..1f
  0, 0, 0, 0, 0, 0, 0, 0, 0, 0, 0, 0, 0, 0, 0, 0, 0, 0, 0, 0, 0, 0, 0, 0, 0, 0, 0, 0, 0, 0, 0, 0, -- 20..3f
  0, 0, 0, 0, 0, 0, 0, 0, 0, 0, 0, 0, 0, 0, 0, 0, 0, 0, 0, 0, 0, 0, 0, 0, 0, 0, 0, 0, 0, 0, 0, 0, -- 40..5f
  0, 0, 0, 0, 0, 0, 0, 0, 0, 0, 0, 0, 0, 0, 0, 0, 0, 0, 0, 0, 0, 0, 0, 0, 0, 0, 0, 0, 0, 0, 0, 0, -- 60..7f
  1, 1, 1, 1, 1, 1, 1, 1, 1, 1, 1, 1, 1, 1, 1, 1, 9, 9, 9, 9, 9, 9, 9, 9, 9, 9, 9, 9, 9, 9, 9, 9, -- 80..9f
  7, 7, 7, 7, 7, 7, 7, 7, 7, 7, 7, 7, 7, 7, 7, 7, 7, 7, 7, 7, 7, 7, 7, 7, 7, 7, 7, 7, 7, 7, 7, 7, -- a0..bf
  8, 8, 2, 2, 2, 2, 2, 2, 2, 2, 2, 2, 2, 2, 2, 2, 2, 2, 2, 2, 2, 2, 2, 2, 2, 2, 2, 2, 2, 2, 2, 2, -- c0..df
  0xa, 0x3, 0x3, 0x3, 0x3, 0x3, 0x3, 0x3, 0x3, 0x3, 0x3, 0x3, 0x3, 0x4, 0x3, 0x3, -- e0..ef
  0xb, 0x6, 0x6, 0x6, 0x5, 0x8, 0x8, 0x8, 0x8, 0x8, 0x8, 0x8, 0x8, 0x8, 0x8, 0x8, -- f0..ff
  0x0, 0x1, 0x2, 0x3, 0x5, 0x8, 0x7, 0x1, 0x1, 0x1, 0x4, 0x6, 0x1, 0x1, 0x1, 0x1, -- s0..s0
  1, 1, 1, 1, 1, 1, 1, 1, 1, 1, 1, 1, 1, 1, 1, 1, 1, 0, 1, 1, 1, 1, 1, 0, 1, 0, 1, 1, 1, 1, 1, 1, -- s1..s2
  1, 2, 1, 1, 1, 1, 1, 2, 1, 2, 1, 1, 1, 1, 1, 1, 1, 1, 1, 1, 1, 1, 1, 2, 1, 1, 1, 1, 1, 1, 1, 1, -- s3..s4
  1, 2, 1, 1, 1, 1, 1, 1, 1, 2, 1, 1, 1, 1, 1, 1, 1, 1, 1, 1, 1, 1, 1, 3, 1, 3, 1, 1, 1, 1, 1, 1, -- s5..s6
  1, 3, 1, 1, 1, 1, 1, 3, 1, 3, 1, 1, 1, 1, 1, 1, 1, 3, 1, 1, 1, 1, 1, 1, 1, 1, 1, 1, 1, 1, 1, 1] -- s7..s8

/-- The state and the code point after the byte; there is nothing behind the end of the table. -/
def decode (state codep : UInt32) (byte : UInt8) : Option (UInt32 × UInt32) := do
  let type ← utf8d[byte.toNat]?
  let codep :=
    if state ≠ utf8_accept then (byte &&& 0x3f).toUInt32 ||| (codep <<< 6)
    else (0xff >>> type.toUInt32) &&& byte.toUInt32
  let state ← utf8d[(256 + state * 16 + type.toUInt32).toNat]?
  return (state.toUInt32, codep)

structure validator where
  m_state : UInt32 := utf8_accept
  m_codepoint : UInt32 := 0

namespace validator

def decode (v : validator) : Bytes → Option (Bool × validator)
  | [] => some (true, v)
  | byte :: rest => do
    let (result, codep) ← utf8_validator.decode v.m_state v.m_codepoint byte
    if result = utf8_reject then return (false, ⟨result, codep⟩)
    else decode ⟨result, codep⟩ rest

def complete (v : validator) : Bool := v.m_state = utf8_accept

end validator

def validate (s : Bytes) : Option Bool := do
  let (ok, v) ← ({} : validator).decode s
  if ok then return v.complete else return false

/-- A text message comes in in frames, and each frame in pieces. -/
def process_payload_bytes (v : validator) : List Bytes → Option (Bool × validator)
  | [] => some (true, v)
  | piece :: rest => do
    let (ok, v) ← v.decode piece
    if ok then process_payload_bytes v rest else return (false, v)

/-- `finalize_message` looks at the last frame, whose opcode is `TEXT` where it is also the first. -/
def receive (frames : List (List Bytes)) : Option Bool := do
  let (ok, v) ← process_payload_bytes {} frames.flatten
  if ok then return frames.length ≠ 1 || v.complete else return false

/-! ### The table -/

def pending : UInt32 → Utf8.Pending
  | 0 => some []
  | 2 => some [Utf8.tail]
  | 3 => some [Utf8.tail, Utf8.tail]
  | 4 => some [⟨0xa0, 0xbf⟩, Utf8.tail]
  | 5 => some [⟨0x80, 0x9f⟩, Utf8.tail]
  | 6 => some [⟨0x90, 0xbf⟩, Utf8.tail, Utf8.tail]
  | 7 => some [Utf8.tail, Utf8.tail, Utf8.tail]
  | 8 => some [⟨0x80, 0x8f⟩, Utf8.tail, Utf8.tail]
  | _ => none

/-- The entries of the table lead from state to state as the reader goes. -/
theorem table_reads : ∀ state < 9, ∀ byte < 256,
    ∃ type ∈ utf8d[byte]?, ∃ state' ∈ utf8d[256 + state * 16 + type.toNat]?,
      state'.toNat < 9 ∧ pending state'.toUInt32 = Utf8.next (pending (UInt32.ofNat state)) (UInt8.ofNat byte) := by
  decide +kernel

/-- The mask keeps the part of the number that the first byte holds. -/
theorem table_masks : ∀ byte < 256, (Utf8.follow (UInt8.ofNat byte)).isSome → ∃ type ∈ utf8d[byte]?,
    ((0xff >>> type.toUInt32) &&& (UInt8.ofNat byte).toUInt32).toNat = Utf8.leading (UInt8.ofNat byte) := by
  decide +kernel

/-- A byte of a text takes a known state to a known state. -/
structure Decodes (state codep : UInt32) (byte : UInt8) (state' codep' : UInt32) : Prop where
  known : state'.toNat < 9
  reads : pending state' = Utf8.next (pending state) byte
  begins : state = utf8_accept → pending state' ≠ none → codep'.toNat = Utf8.leading byte
  continues : state ≠ utf8_accept → codep' = (byte &&& 0x3f).toUInt32 ||| (codep <<< 6)

theorem decode_next {state : UInt32} (known : state.toNat < 9) (codep : UInt32) (byte : UInt8) :
    ∃ state' codep', decode state codep byte = some (state', codep') ∧ Decodes state codep byte state' codep' := by
  obtain ⟨type, typed, state', moved, known', reads⟩ := table_reads _ known _ byte.toNat_lt
  have place : (256 + state * 16 + type.toUInt32).toNat = 256 + state.toNat * 16 + type.toNat := by
    have small := type.toNat_lt
    simp only [UInt32.toNat_add, UInt32.toNat_mul, UInt8.toNat_toUInt32, UInt32.reduceToNat]
    omega
  rw [UInt32.ofNat_toNat, UInt8.ofNat_toNat] at reads
  have decoded : decode state codep byte = some (state'.toUInt32,
      if state ≠ utf8_accept then (byte &&& 0x3f).toUInt32 ||| (codep <<< 6)
      else (0xff >>> type.toUInt32) &&& byte.toUInt32) := by
    unfold decode
    rw [Option.mem_def.mp typed]
    simp only [Option.bind_eq_bind, Option.bind_some, place, Option.mem_def.mp moved]
    rfl
  refine ⟨_, _, decoded, by simpa using known', reads, fun home alive => ?_, fun away => if_pos away⟩
  rw [if_neg (not_not.mpr home)]
  rw [reads, home] at alive
  obtain ⟨type', typed', masks⟩ := table_masks _ byte.toNat_lt (by
    rw [UInt8.ofNat_toNat]
    exact Option.isSome_iff_ne_none.mpr alive)
  obtain rfl : type = type' := Option.mem_unique typed typed'
  rwa [UInt8.ofNat_toNat] at masks

/-- The states of a validator that has not met an error. -/
theorem pending_states {state : UInt32} (known : state.toNat < 9) :
    (state = utf8_reject ↔ pending state = none) ∧ (state = utf8_accept ↔ pending state = some []) := by
  have every : ∀ n < 9, (UInt32.ofNat n = utf8_reject ↔ pending (UInt32.ofNat n) = none) ∧
      (UInt32.ofNat n = utf8_accept ↔ pending (UInt32.ofNat n) = some []) := by decide
  have here := every _ known
  rwa [UInt32.ofNat_toNat] at here

structure Fine (v : validator) : Prop where
  known : v.m_state.toNat < 9
  alive : pending v.m_state ≠ none

/-- What a validator does with a text: it reads it to the end, or meets an error. -/
structure Reads (v : validator) (text : Bytes) (ok : Bool) (v' : validator) : Prop where
  reads : pending v'.m_state = Utf8.read (pending v.m_state) text
  fine : ok = true → Fine v'
  dead : ok = false → pending v'.m_state = none

theorem validator_decode {v : validator} (fine : Fine v) (text : Bytes) :
    ∃ ok v', v.decode text = some (ok, v') ∧ Reads v text ok v' := by
  induction text generalizing v with
  | nil => exact ⟨true, v, rfl, rfl, fun _ => fine, by simp⟩
  | cons byte rest ih =>
    obtain ⟨state, codep, decoded, decodes⟩ := decode_next fine.known v.m_codepoint byte
    unfold validator.decode
    rw [decoded]
    simp only [Option.bind_eq_bind, Option.bind_some]
    have first : Utf8.read (pending v.m_state) (byte :: rest) = Utf8.read (pending state) rest := by
      rw [Utf8.read, Machine.run, ← decodes.reads]
    split
    · rename_i rejected
      have dead := (pending_states decodes.known).1.mp rejected
      refine ⟨false, _, rfl, ?_, by simp, fun _ => dead⟩
      rw [first, dead, Utf8.read_none]
    · rename_i goes
      have onward : Fine ⟨state, codep⟩ :=
        ⟨decodes.known, fun dead => goes ((pending_states decodes.known).1.mpr dead)⟩
      obtain ⟨ok, v', run, reads⟩ := ih onward
      exact ⟨ok, v', run, reads.reads.trans first.symm, reads.fine, reads.dead⟩

theorem process_reads {v : validator} (fine : Fine v) (pieces : List Bytes) :
    ∃ ok v', process_payload_bytes v pieces = some (ok, v') ∧ Reads v pieces.flatten ok v' := by
  induction pieces generalizing v with
  | nil => exact ⟨true, v, rfl, rfl, fun _ => fine, by simp⟩
  | cons piece rest ih =>
    obtain ⟨ok, w, decoded, here⟩ := validator_decode fine piece
    unfold process_payload_bytes
    rw [decoded]
    simp only [Option.bind_eq_bind, Option.bind_some, List.flatten_cons]
    cases ok with
    | false =>
      refine ⟨false, w, rfl, ?_, by simp, here.dead⟩
      rw [Utf8.read_append, ← here.reads, here.dead rfl, Utf8.read_none]
    | true =>
      obtain ⟨ok, v', run, later⟩ := ih (here.fine rfl)
      refine ⟨ok, v', run, ?_, later.fine, later.dead⟩
      rw [Utf8.read_append, ← here.reads]
      exact later.reads

theorem fine_new : Fine {} := ⟨by decide, by decide⟩

theorem complete_iff {v : validator} (fine : Fine v) : v.complete = true ↔ pending v.m_state = some [] := by
  rw [validator.complete, decide_eq_true_iff]
  exact (pending_states fine.known).2

theorem validate_eq (s : Bytes) : validate s = some (decide (Utf8.Valid s)) := by
  obtain ⟨ok, v, decoded, reads⟩ := validator_decode fine_new s
  have home : pending v.m_state = Utf8.read (some []) s := reads.reads
  unfold validate
  rw [decoded]
  simp only [Option.bind_eq_bind, Option.bind_some, Utf8.valid_iff, ← home]
  cases ok with
  | false => simp [reads.dead rfl]
  | true =>
    rw [if_pos rfl]
    refine congrArg some (Bool.eq_iff_iff.mpr ?_)
    rw [decide_eq_true_iff]
    exact complete_iff (reads.fine rfl)

theorem receive_iff (frames : List (List Bytes)) : receive frames = some true ↔
    if frames.length = 1 then Utf8.Valid frames.flatten.flatten
    else ∃ rest, Utf8.Valid (frames.flatten.flatten ++ rest) := by
  obtain ⟨ok, v, decoded, reads⟩ := process_reads fine_new frames.flatten
  have home : pending v.m_state = Utf8.read (some []) frames.flatten.flatten := reads.reads
  unfold receive
  rw [decoded, Utf8.valid_iff, ← Utf8.read_ne_none_iff, ← home]
  simp only [Option.bind_eq_bind, Option.bind_some]
  cases ok with
  | false => simp [reads.dead rfl]
  | true =>
    have fine := reads.fine rfl
    rw [if_pos rfl]
    split
    · rename_i single
      simp [single, complete_iff fine]
    · rename_i several
      simp [several, fine.alive]

/-! ### The code points -/

theorem continues_number {codep : UInt32} {byte : UInt8} (small : codep.toNat < 2 ^ 26) (has : Utf8.tail.Has byte) :
    ((byte &&& 0x3f).toUInt32 ||| (codep <<< 6)).toNat = Utf8.continued codep.toNat byte := by
  obtain ⟨low, high⟩ : 0x80 ≤ byte.toNat ∧ byte.toNat ≤ 0xbf := has
  have part : (byte &&& 0x3f).toUInt32.toNat = byte.toNat % 2 ^ 6 := by
    simp only [UInt8.toNat_toUInt32, UInt8.toNat_and, UInt8.reduceToNat]
    exact Nat.and_two_pow_sub_one_eq_mod _ 6
  have shifted : (codep <<< 6).toNat = codep.toNat <<< 6 := by
    simp only [UInt32.toNat_shiftLeft, UInt32.reduceToNat, Nat.reduceMod, Nat.shiftLeft_eq]
    omega
  rw [UInt32.toNat_or, part, shifted, Nat.or_comm, ← Nat.shiftLeft_add_eq_or_of_lt (Nat.mod_lt _ (by decide)),
    Nat.shiftLeft_eq]
  unfold Utf8.continued
  omega

theorem decode_fits {rs : List Utf8.Range} {bs : Bytes} (fits : Utf8.Fits rs bs) (tails : ∀ b ∈ bs, Utf8.tail.Has b)
    {state codep : UInt32} (known : state.toNat < 9) (waits : pending state = some rs)
    (small : bs.foldl Utf8.continued codep.toNat < 2 ^ 26) :
    ∃ codep', bs.foldlM (fun p byte => decode p.1 p.2 byte) (state, codep) = some (utf8_accept, codep') ∧
      codep'.toNat = bs.foldl Utf8.continued codep.toNat := by
  induction fits generalizing state codep with
  | nil => exact ⟨codep, by rw [(pending_states known).2.mpr waits]; rfl, rfl⟩
  | cons has rest ih =>
    rename_i r b rs bs
    obtain ⟨state', codep', decoded, decodes⟩ := decode_next known codep b
    have away : state ≠ utf8_accept := fun home => by
      rw [(pending_states known).2.mp home] at waits
      cases waits
    have least : codep.toNat < 2 ^ 26 := Nat.lt_of_le_of_lt (Utf8.le_foldl_continued (b :: bs) _) small
    have number : codep'.toNat = Utf8.continued codep.toNat b := by
      rw [decodes.continues away]
      exact continues_number least (tails b List.mem_cons_self)
    have waits' : pending state' = some rs := by
      rw [decodes.reads, waits, Utf8.next, if_pos has]
    rw [List.foldl_cons, ← number] at small
    obtain ⟨codep'', folded, value⟩ := ih (fun c member => tails c (List.mem_cons_of_mem _ member)) decodes.known
      waits' small
    refine ⟨codep'', ?_, ?_⟩
    · rw [List.foldlM_cons, decoded]
      exact folded
    · rw [List.foldl_cons, ← number]
      exact value

/-- Decoding the bytes of a character fills in that character. -/
theorem decode_char (c : Char) (codep : UInt32) :
    (String.utf8EncodeChar c).foldlM (fun p byte => decode p.1 p.2 byte) (utf8_accept, codep) =
      some (utf8_accept, c.val) := by
  obtain ⟨b, bs, rs, encoded, leads, fits⟩ := Utf8.encode_fits c
  obtain ⟨state, codep', decoded, decodes⟩ := @decode_next utf8_accept (by decide) codep b
  have waits : pending state = some rs := decodes.reads.trans leads.follow
  have lead : codep'.toNat = Utf8.leading b := decodes.begins rfl (by simp [waits])
  have number := Utf8.number_encode c encoded
  rw [← lead] at number
  have scalar := Utf8.scalar c
  have small : bs.foldl Utf8.continued codep'.toNat < 2 ^ 26 := by omega
  obtain ⟨codep'', folded, value⟩ := decode_fits fits (Utf8.tail_of_fits leads fits) decodes.known waits small
  have same : codep'' = c.val := UInt32.toNat_inj.mp (value.trans number)
  rw [encoded, List.foldlM_cons, decoded, ← same]
  exact folded

/-- The validator accepts the texts of characters and no other. A text that comes in in several frames it only
refuses where no text of characters begins with it. At the end of a character it has its number. -/
theorem validator_is_exact (s : Bytes) (frames : List (List Bytes)) :
    validate s = some (decide (Utf8.Valid s)) ∧
    (receive frames = some true ↔
      if frames.length = 1 then Utf8.Valid frames.flatten.flatten
      else ∃ rest, Utf8.Valid (frames.flatten.flatten ++ rest)) ∧
    ∀ (c : Char) (codep : UInt32),
      (String.utf8EncodeChar c).foldlM (fun p byte => decode p.1 p.2 byte) (utf8_accept, codep) =
        some (utf8_accept, c.val) :=
  ⟨validate_eq s, receive_iff frames, decode_char⟩

end Rosbridge.utf8_validator
