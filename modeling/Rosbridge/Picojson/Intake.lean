import Rosbridge.Picojson.Unicode

/-!
# What is made of UTF-8

The strings of a text that is UTF-8 are UTF-8, whatever is escaped in them, and so are those that `parse` leaves
behind when it meets an error. A text that is cut off inside a character can leave half a character behind.
-/

namespace Rosbridge.picojson

/-! ### Escapes -/

theorem hexDigit_ascii : ∀ n < 256, (hexDigit (UInt8.ofNat n)).all (· < 16) = true ∧
    ((hexDigit (UInt8.ofNat n)).isSome → n ≤ 0x7f) := by
  decide +kernel

theorem hexDigit_some {ch : UInt8} {n : Nat} (hex : hexDigit ch = some n) : n < 16 ∧ ch.toNat ≤ 0x7f := by
  have every := hexDigit_ascii _ ch.toNat_lt
  rw [UInt8.ofNat_toNat, hex] at every
  exact ⟨of_decide_eq_true every.1, every.2 rfl⟩

theorem hexValue_ascii {digits : Bytes} {uni_ch n : Nat} (value : hexValue digits uni_ch = some n) :
    (∀ b ∈ digits, b.toNat ≤ 0x7f) ∧ n < (uni_ch + 1) * 16 ^ digits.length := by
  induction digits generalizing uni_ch with
  | nil =>
    obtain rfl := Option.some.inj value
    exact ⟨fun b member => absurd member List.not_mem_nil, by simp⟩
  | cons ch digits ih =>
    rw [hexValue] at value
    obtain ⟨hex, digit, value⟩ := Option.bind_eq_some_iff.mp value
    obtain ⟨small, ascii⟩ := hexDigit_some digit
    obtain ⟨others, bound⟩ := ih value
    refine ⟨List.forall_mem_cons.mpr ⟨ascii, others⟩, Nat.lt_of_lt_of_le bound ?_⟩
    rw [List.length_cons, Nat.pow_succ', ← Nat.mul_assoc]
    exact Nat.mul_le_mul_right _ (by omega)

theorem toUInt8_eq {n m : Nat} (same : n = m) : n.toUInt8 = UInt8.ofNat m := by rw [same]

/-- `utf8` encodes the characters as they are encoded. -/
theorem utf8_char (c : Char) : utf8 c.val.toNat = String.utf8EncodeChar c := by
  have scalar := Utf8.scalar c
  unfold utf8 String.utf8EncodeChar
  generalize c.val.toNat = n at scalar ⊢
  simp only [Nat.shiftRight_eq_div_pow]
  have low (shift : Nat) : (0x80 + n / 2 ^ shift % 0x40).toUInt8 = UInt8.ofNat (n / 2 ^ shift % 0x40 + 0x80) :=
    toUInt8_eq (Nat.add_comm _ _)
  by_cases one : n < 0x80
  · rw [if_pos one, if_pos (by omega)]
  by_cases two : n < 0x800
  · rw [if_neg one, if_pos two, if_neg (by omega), if_pos (by omega), low 0,
      toUInt8_eq (show 0xc0 + n / 2 ^ 6 = n / 64 % 32 + 192 by omega), Nat.pow_zero, Nat.div_one]
  by_cases three : n < 0x10000
  · rw [if_neg one, if_neg two, if_pos three, if_neg (by omega), if_neg (by omega), if_pos (by omega), low 0, low 6,
      toUInt8_eq (show 0xe0 + n / 2 ^ 12 = n / 4096 % 16 + 224 by omega), Nat.pow_zero, Nat.div_one]
    rfl
  · rw [if_neg one, if_neg two, if_neg three, if_neg (by omega), if_neg (by omega), if_neg (by omega), low 0, low 6,
      low 12, toUInt8_eq (show 0xf0 + n / 2 ^ 18 = n / 262144 % 8 + 240 by omega), Nat.pow_zero, Nat.div_one]
    rfl

/-- An escaped code point is written in ASCII, and stands for a character. -/
theorem codepoint_char {code encoded : Bytes} (denotes : CodepointText code encoded) :
    (∀ b ∈ code, b.toNat ≤ 0x7f) ∧ ∃ c : Char, encoded = String.utf8EncodeChar c := by
  cases denotes with
  | @single digits n four value plain =>
    obtain ⟨ascii, bound⟩ := hexValue_ascii value
    rw [four] at bound
    obtain ⟨c, number⟩ := @Utf8.exists_char n (by omega)
    exact ⟨ascii, c, by rw [← number, utf8_char]⟩
  | @pair high low first second four four' value value' leads trails =>
    obtain ⟨ascii, -⟩ := hexValue_ascii value
    obtain ⟨ascii', -⟩ := hexValue_ascii value'
    obtain ⟨c, number⟩ := @Utf8.exists_char ((first - 0xd800) * 0x400 + (second - 0xdc00) + 0x10000) (by omega)
    refine ⟨List.forall_mem_append.mpr ⟨ascii, ?_⟩, c, by rw [← number, utf8_char]⟩
    exact List.forall_mem_cons.mpr ⟨by decide, List.forall_mem_cons.mpr ⟨by decide, ascii'⟩⟩

theorem unescape_ascii : ∀ n < 256, ∀ c ∈ unescape (UInt8.ofNat n), n ≤ 0x7f ∧ c.toNat ≤ 0x7f := by decide +kernel

theorem unescape_some {ch c : UInt8} (known : unescape ch = some c) : ch.toNat ≤ 0x7f ∧ c.toNat ≤ 0x7f := by
  refine unescape_ascii _ ch.toNat_lt c ?_
  rw [UInt8.ofNat_toNat]
  exact known

/-! ### Reading

`text` is how a reader of the whole text ends. A parser that has met no error is at the end of a character,
and one that has met an error has read whole characters only where the text has no others. -/

/-- What is unread leads there from the end of a character. -/
def Leaves (s : Input) (last : Utf8.Pending) : Prop := Utf8.read (some []) s.unread = last

structure Made (last : Utf8.Pending) (ok : Bool) (s' : Input) (whole : Prop) : Prop where
  leaves : ok = true → Leaves s' last
  whole : ok = true ∨ last = some [] → whole

theorem made_by_error {last : Utf8.Pending} {s' : Input} {whole : Prop} (h : whole) : Made last false s' whole :=
  ⟨by simp, fun _ => h⟩

theorem spaces_ascii {spaces : Bytes} (blank : Spaces spaces) : ∀ b ∈ spaces, b.toNat ≤ 0x7f := by
  intro b member
  have space := blank b member
  simp only [isSpace, List.mem_cons, List.not_mem_nil, or_false, decide_eq_true_eq] at space
  rcases space with rfl | rfl | rfl | rfl <;> decide

theorem leaves_ascii {s s' : Input} {last : Utf8.Pending} (leaves : Leaves s last) (text : Bytes)
    (ascii : ∀ b ∈ text, b.toNat ≤ 0x7f) (split : s.unread = text ++ s'.unread) : Leaves s' last := by
  rw [Leaves, split, Utf8.read_valid (Utf8.valid_ascii ascii)] at leaves
  exact leaves

theorem leaves_expect {expected : Char} {b : Bool} {s s' : Input} {last : Utf8.Pending}
    (ascii : (byte expected).toNat ≤ 0x7f) (run : expect expected s = .ok (b, s')) (leaves : Leaves s last) :
    Leaves s' last := by
  cases b with
  | false =>
    obtain ⟨spaces, blank, split⟩ := expect_no run
    exact leaves_ascii leaves _ (spaces_ascii blank) split
  | true =>
    obtain ⟨spaces, blank, split⟩ := expect_ok run
    refine leaves_ascii leaves (spaces ++ [byte expected]) ?_ (by rw [split]; simp)
    exact List.forall_mem_append.mpr ⟨spaces_ascii blank, List.forall_mem_singleton.mpr ascii⟩

def LoopMakes (fuel : Nat) : Prop :=
  ∀ (out : Bytes) {s : Input} {last : Utf8.Pending}, s.unread.length < fuel → last ≠ none →
    Utf8.read (some []) (out ++ s.unread) = last →
    ∃ ok str s', parse_string_loop fuel out s = .ok ((ok, str), s') ∧ Made last ok s' (Utf8.Valid str)

/-- The round of the loop behind a backslash. -/
theorem escape_makes {fuel : Nat} (makes : LoopMakes fuel) {out : Bytes} (valid : Utf8.Valid out) {s : Input}
    {last : Utf8.Pending} (enough : s.unread.length < fuel) (alive : last ≠ none) (leaves : Leaves s last) :
    ∃ ok str s', (do
      match ← getc with
      | none => return (false, out)
      | some ch =>
        if ch = byte 'u' then
          match ← parse_codepoint with
          | none => return (false, out)
          | some encoded => parse_string_loop fuel (out ++ encoded)
        else
          match unescape ch with
          | none => return (false, out)
          | some ch => parse_string_loop fuel (out ++ [ch]) : Reader (Bool × Bytes)) s = .ok ((ok, str), s') ∧
      Made last ok s' (Utf8.Valid str) := by
  cases left : s.unread with
  | nil =>
    obtain ⟨line, read⟩ := getc_nil left
    rw [bind_run_ok read]
    exact ⟨false, out, _, rfl, made_by_error valid⟩
  | cons ch rest =>
    obtain ⟨line, read⟩ := getc_cons left
    rw [bind_run_ok read]
    dsimp only
    rw [left, List.length_cons] at enough
    by_cases isU : ch = byte 'u'
    · rw [if_pos isU]
      have behind : Leaves ⟨ch :: rest, true, line⟩ last :=
        leaves_ascii leaves [byte 'u'] (by decide +kernel) (by rw [left, isU]; rfl)
      obtain ⟨r, s₁, run, reads⟩ := parse_codepoint_run ⟨ch :: rest, true, line⟩
      rw [bind_run_ok run]
      cases r with
      | none => exact ⟨false, out, _, rfl, made_by_error valid⟩
      | some encoded =>
        obtain ⟨code, split, denotes⟩ := (reads encoded s₁.unread).mp ⟨rfl, rfl⟩
        obtain ⟨ascii, c, rfl⟩ := codepoint_char denotes
        have after : Leaves s₁ last := leaves_ascii behind _ ascii split
        have valid' : Utf8.Valid (out ++ String.utf8EncodeChar c) :=
          (Utf8.valid_append valid _).mpr ⟨[c], by simp⟩
        refine makes _ ?_ alive ((Utf8.read_valid valid' _).trans after)
        have shorter := congrArg List.length split
        rw [List.length_append, show Input.unread _ = rest from rfl] at shorter
        omega
    · rw [if_neg isU]
      cases known : unescape ch with
      | none => exact ⟨false, out, _, rfl, made_by_error valid⟩
      | some c =>
        obtain ⟨ascii, ascii'⟩ := unescape_some known
        have behind : Leaves ⟨ch :: rest, true, line⟩ last :=
          leaves_ascii leaves [ch] (List.forall_mem_singleton.mpr ascii) left
        have valid' : Utf8.Valid (out ++ [c]) := (Utf8.valid_split ascii').mpr ⟨valid, Utf8.valid_nil⟩
        exact makes _ (Nat.lt_of_succ_lt enough) alive ((Utf8.read_valid valid' _).trans behind)

theorem parse_string_loop_makes (fuel : Nat) : LoopMakes fuel := by
  induction fuel with
  | zero => exact fun out s last enough => absurd enough (Nat.not_lt_zero _)
  | succ fuel ih =>
    intro out s last enough alive goes
    unfold parse_string_loop
    cases left : s.unread with
    | nil =>
      obtain ⟨line, read⟩ := getc_nil left
      rw [bind_run_ok read]
      rw [left, List.append_nil] at goes
      refine ⟨false, out, _, rfl, by simp, fun ended => ?_⟩
      obtain failed | home := ended
      · cases failed
      · exact (Utf8.valid_iff out).mpr (goes.trans home)
    | cons ch rest =>
      obtain ⟨line, read⟩ := getc_cons left
      rw [bind_run_ok read]
      rw [left] at goes enough
      rw [List.length_cons] at enough
      dsimp only
      -- Before a character that ends the string or begins an escape, the string is whole.
      have ended (ascii : ch.toNat ≤ 0x7f) : Utf8.Valid out ∧ Utf8.read (some []) rest = last := by
        rw [← goes] at alive ⊢
        exact Utf8.read_split ascii alive
      by_cases control : ch < byte ' '
      · rw [if_pos control]
        have less := UInt8.lt_iff_toNat_lt.mp control
        rw [show (byte ' ').toNat = 0x20 from rfl] at less
        exact ⟨false, out, _, rfl, made_by_error (ended (by omega)).1⟩
      rw [if_neg control]
      by_cases quote : ch = byte '"'
      · rw [if_pos quote]
        obtain ⟨valid, behind⟩ := ended (by rw [quote]; decide)
        exact ⟨true, out, _, rfl, fun _ => behind, fun _ => valid⟩
      rw [if_neg quote]
      by_cases backslash : ch = byte '\\'
      · rw [if_pos backslash]
        obtain ⟨valid, behind⟩ := ended (by rw [backslash]; decide)
        exact escape_makes ih valid (s := ⟨ch :: rest, true, line⟩) (Nat.lt_of_succ_lt_succ enough) alive behind
      · rw [if_neg backslash]
        refine ih (out ++ [ch]) (s := ⟨ch :: rest, true, line⟩) (Nat.lt_of_succ_lt_succ enough) alive ?_
        rw [List.append_assoc]
        exact goes

theorem parse_string_makes {s : Input} {last : Utf8.Pending} (alive : last ≠ none) (leaves : Leaves s last) :
    ∃ ok str s', parse_string s = .ok ((ok, str), s') ∧ Made last ok s' (Utf8.Valid str) := by
  have enough : s.unread.length < s.rest.length + 1 := Nat.lt_succ_of_le (unread_length s)
  exact parse_string_loop_makes _ [] enough alive leaves

theorem word_makes {pattern : List Char} {out v w : Value} {ok : Bool} {s s' : Input} {last : Utf8.Pending}
    (ascii : ∀ b ∈ pattern.map byte, b.toNat ≤ 0x7f) (leaves : Leaves s last) (before : out.raw.Unicode)
    (value : v.raw.Unicode)
    (read : (do return if ← matches_ pattern then (true, v) else (false, out) : Reader (Bool × Value)) s =
      .ok ((ok, w), s')) : Made last ok s' w.raw.Unicode := by
  obtain ⟨b, s₁, run, left⟩ := matches_run pattern s
  rw [bind_run_ok run] at read
  obtain ⟨same, rfl⟩ := pure_run_ok read
  cases b with
  | false =>
    obtain ⟨rfl, rfl⟩ := Prod.mk.inj same
    exact made_by_error before
  | true =>
    obtain ⟨rfl, rfl⟩ := Prod.mk.inj same
    exact ⟨fun _ => leaves_ascii leaves _ ascii ((left s₁.unread).mp ⟨rfl, rfl⟩), fun _ => value⟩

theorem set_number_makes {out v : Value} {num_str : Bytes} {ok : Bool} {s s' : Input} {last : Utf8.Pending}
    (leaves : Leaves s last) (before : out.raw.Unicode) (read : set_number out num_str s = .ok ((ok, v), s')) :
    Made last ok s' v.raw.Unicode := by
  cases ok with
  | true =>
    obtain ⟨n, -, rfl, rfl⟩ := set_number_accepted read
    exact ⟨fun _ => leaves, fun _ _ member => absurd member List.not_mem_nil⟩
  | false =>
    unfold set_number at read
    cases value : strtod num_str with
    | none =>
      rw [value] at read
      obtain ⟨same, rfl⟩ := pure_run_ok read
      obtain ⟨-, rfl⟩ := Prod.mk.inj same
      exact made_by_error before
    | some q =>
      rw [value] at read
      dsimp only at read
      cases rounded : nearest q with
      | none =>
        rw [rounded] at read
        cases read
      | some n =>
        rw [rounded] at read
        cases (pure_run_ok read).1

structure Makes (fuel : Nat) : Prop where
  value {out v : Value} {ok : Bool} {s s' : Input} {last : Utf8.Pending} (alive : last ≠ none)
    (leaves : Leaves s last) (before : out.raw.Unicode) (read : parse_value fuel out s = .ok ((ok, v), s')) :
    Made last ok s' v.raw.Unicode
  items {items : List Value} {v : Value} {ok : Bool} {s s' : Input} {last : Utf8.Pending} (alive : last ≠ none)
    (leaves : Leaves s last) (before : ∀ item ∈ items, item.raw.Unicode)
    (read : parse_items fuel items s = .ok ((ok, v), s')) : Made last ok s' v.raw.Unicode
  fields {fields : Object} {v : Value} {ok : Bool} {s s' : Input} {last : Utf8.Pending} (alive : last ≠ none)
    (leaves : Leaves s last) (before : fields.Unicode) (read : parse_fields fuel fields s = .ok ((ok, v), s')) :
    Made last ok s' v.raw.Unicode

theorem parse_value_from_makes {fuel : Nat} (ih : Makes fuel) {out v : Value} {ch : UInt8} {rest : Bytes} {line : Nat}
    {ok : Bool} {s' : Input} {last : Utf8.Pending} (alive : last ≠ none)
    (leaves : Utf8.read (some []) (ch :: rest) = last) (before : out.raw.Unicode)
    (read : parse_value_from fuel out ch ⟨ch :: rest, true, line⟩ = .ok ((ok, v), s')) :
    Made last ok s' v.raw.Unicode := by
  have nothing {x : Raw} (none : x.strings = []) : x.Unicode := by
    intro s member
    rw [none] at member
    cases member
  have behind (ascii : ch.toNat ≤ 0x7f) : Leaves ⟨ch :: rest, true, line⟩ last := by
    rw [← leaves] at alive ⊢
    exact (@Utf8.read_split [] _ _ ascii alive).2
  unfold parse_value_from at read
  by_cases isNull : ch = byte 'n'
  · rw [if_pos isNull] at read
    exact word_makes (by decide +kernel) (behind (by rw [isNull]; decide)) before (nothing rfl) read
  rw [if_neg isNull] at read
  by_cases isFalse : ch = byte 'f'
  · rw [if_pos isFalse] at read
    exact word_makes (by decide +kernel) (behind (by rw [isFalse]; decide)) before (nothing rfl) read
  rw [if_neg isFalse] at read
  by_cases isTrue : ch = byte 't'
  · rw [if_pos isTrue] at read
    exact word_makes (by decide +kernel) (behind (by rw [isTrue]; decide)) before (nothing rfl) read
  rw [if_neg isTrue] at read
  by_cases isQuote : ch = byte '"'
  · rw [if_pos isQuote] at read
    obtain ⟨ok', str, s₁, run, made⟩ := parse_string_makes alive (behind (by rw [isQuote]; decide))
    rw [bind_run_ok run] at read
    obtain ⟨same, rfl⟩ := pure_run_ok read
    obtain ⟨rfl, rfl⟩ := Prod.mk.inj same
    refine ⟨made.leaves, fun ended t member => ?_⟩
    obtain rfl := List.mem_singleton.mp member
    exact made.whole ended
  rw [if_neg isQuote] at read
  by_cases isBracket : ch = byte '['
  · rw [if_pos isBracket] at read
    obtain ⟨b, s₁, first, read⟩ := bind_run_inv read
    have leaves₁ : Leaves s₁ last := leaves_expect (by decide) first (behind (by rw [isBracket]; decide))
    cases b with
    | true =>
      obtain ⟨same, rfl⟩ := pure_run_ok read
      obtain ⟨rfl, rfl⟩ := Prod.mk.inj same
      exact ⟨fun _ => leaves₁, fun _ => nothing rfl⟩
    | false => exact ih.items alive leaves₁ (fun item member => absurd member List.not_mem_nil) read
  rw [if_neg isBracket] at read
  by_cases isBrace : ch = byte '\x7b'
  · rw [if_pos isBrace] at read
    obtain ⟨b, s₁, first, read⟩ := bind_run_inv read
    have leaves₁ : Leaves s₁ last := leaves_expect (by decide) first (behind (by rw [isBrace]; decide))
    cases b with
    | true =>
      obtain ⟨same, rfl⟩ := pure_run_ok read
      obtain ⟨rfl, rfl⟩ := Prod.mk.inj same
      exact ⟨fun _ => leaves₁, fun _ => nothing rfl⟩
    | false => exact ih.fields alive leaves₁ Object.unicode_empty read
  rw [if_neg isBrace] at read
  by_cases start : (isDigit ch || ch = byte '-') = true
  · rw [if_pos start, bind_run_ok (ungetc_run _)] at read
    obtain ⟨s₁, run, left⟩ := parse_number_run ⟨ch :: rest, false, line⟩
    rw [bind_run_ok run] at read
    have again : Leaves ⟨ch :: rest, false, line⟩ last := leaves
    refine set_number_makes (leaves_ascii again ((ch :: rest).takeWhile isNumeric) ?_ ?_) before read
    · exact fun b member => numeric_ascii (List.mem_takeWhile_imp member)
    · rw [left, unread_fresh, List.takeWhile_append_dropWhile]
  · rw [if_neg start, bind_run_ok (ungetc_run _)] at read
    obtain ⟨same, rfl⟩ := pure_run_ok read
    obtain ⟨rfl, rfl⟩ := Prod.mk.inj same
    exact made_by_error before

theorem unicode_ofArray {items : List Value} :
    (Value.ofArray items).raw.Unicode ↔ ∀ item ∈ items, item.raw.Unicode := by
  rw [Value.ofArray, Raw.unicode_array, List.forall_mem_map]

theorem parse_items_makes {fuel : Nat} (ih : Makes fuel) {items : List Value} {v : Value} {ok : Bool} {s s' : Input}
    {last : Utf8.Pending} (alive : last ≠ none) (leaves : Leaves s last) (before : ∀ item ∈ items, item.raw.Unicode)
    (read : parse_items (fuel + 1) items s = .ok ((ok, v), s')) : Made last ok s' v.raw.Unicode := by
  unfold parse_items at read
  obtain ⟨⟨ok₁, item⟩, s₁, first, read⟩ := bind_run_inv read
  have made := ih.value alive leaves (fun _ member => absurd member List.not_mem_nil) first
  have more (whole : item.raw.Unicode) : ∀ x ∈ items ++ [item], x.raw.Unicode :=
    List.forall_mem_append.mpr ⟨before, List.forall_mem_singleton.mpr whole⟩
  cases ok₁ with
  | false =>
    obtain ⟨same, rfl⟩ := pure_run_ok read
    obtain ⟨rfl, rfl⟩ := Prod.mk.inj same
    exact ⟨by simp, fun ended => unicode_ofArray.mpr (more (made.whole ended))⟩
  | true =>
    have every := more (made.whole (.inl rfl))
    obtain ⟨comma, s₂, second, read⟩ := bind_run_inv read
    have leaves₂ : Leaves s₂ last := leaves_expect (by decide) second (made.leaves rfl)
    cases comma with
    | true => exact ih.items alive leaves₂ every read
    | false =>
      obtain ⟨close, s₃, third, read⟩ := bind_run_inv read
      have leaves₃ : Leaves s₃ last := leaves_expect (by decide) third leaves₂
      obtain ⟨same, rfl⟩ := pure_run_ok read
      obtain ⟨rfl, rfl⟩ := Prod.mk.inj same
      exact ⟨fun _ => leaves₃, fun _ => unicode_ofArray.mpr every⟩

theorem parse_fields_makes {fuel : Nat} (ih : Makes fuel) {fields : Object} {v : Value} {ok : Bool} {s s' : Input}
    {last : Utf8.Pending} (alive : last ≠ none) (leaves : Leaves s last) (before : fields.Unicode)
    (read : parse_fields (fuel + 1) fields s = .ok ((ok, v), s')) : Made last ok s' v.raw.Unicode := by
  unfold parse_fields at read
  obtain ⟨opening, s₁, first, read⟩ := bind_run_inv read
  have leaves₁ : Leaves s₁ last := leaves_expect (by decide) first leaves
  obtain ⟨ok₁, key, s₂, run, named⟩ := parse_string_makes alive leaves₁
  have failed {s₀ : Input} (read : (pure (false, .ofObject fields) : Reader (Bool × Value)) s₀ = .ok ((ok, v), s')) :
      Made last ok s' v.raw.Unicode := by
    obtain ⟨same, rfl⟩ := pure_run_ok read
    obtain ⟨rfl, rfl⟩ := Prod.mk.inj same
    exact made_by_error before
  cases opening with
  | false => exact failed read
  | true =>
  simp only [Bool.not_true, Bool.false_eq_true, if_false, bind_run_ok run] at read
  cases ok₁ with
  | false => exact failed read
  | true =>
  obtain ⟨colon, s₃, third, read⟩ := bind_run_inv read
  have leaves₃ : Leaves s₃ last := leaves_expect (by decide) third (named.leaves rfl)
  cases colon with
  | false => exact failed read
  | true =>
  obtain ⟨⟨ok₂, value⟩, s₄, fourth, read⟩ := bind_run_inv read
  have made := ih.value alive leaves₃ (before.read key) fourth
  have more (whole : value.raw.Unicode) : (fields.insert key value).Unicode :=
    before.insert (named.whole (.inl rfl)) whole
  cases ok₂ with
  | false =>
    obtain ⟨same, rfl⟩ := pure_run_ok read
    obtain ⟨rfl, rfl⟩ := Prod.mk.inj same
    exact ⟨by simp, fun ended => more (made.whole ended)⟩
  | true =>
  have every := more (made.whole (.inl rfl))
  obtain ⟨comma, s₅, fifth, read⟩ := bind_run_inv read
  have leaves₅ : Leaves s₅ last := leaves_expect (by decide) fifth (made.leaves rfl)
  cases comma with
  | true => exact ih.fields alive leaves₅ every read
  | false =>
    obtain ⟨close, s₆, sixth, read⟩ := bind_run_inv read
    have leaves₆ : Leaves s₆ last := leaves_expect (by decide) sixth leaves₅
    obtain ⟨same, rfl⟩ := pure_run_ok read
    obtain ⟨rfl, rfl⟩ := Prod.mk.inj same
    exact ⟨fun _ => leaves₆, fun _ => every⟩

theorem parser_makes (fuel : Nat) : Makes fuel := by
  induction fuel with
  | zero =>
    refine ⟨fun alive leaves before read => ?_, fun alive leaves before read => ?_, fun alive leaves before read => ?_⟩
    · unfold parse_value at read
      obtain ⟨same, rfl⟩ := pure_run_ok read
      obtain ⟨rfl, rfl⟩ := Prod.mk.inj same
      exact made_by_error before
    · unfold parse_items at read
      obtain ⟨same, rfl⟩ := pure_run_ok read
      obtain ⟨rfl, rfl⟩ := Prod.mk.inj same
      exact made_by_error (unicode_ofArray.mpr before)
    · unfold parse_fields at read
      obtain ⟨same, rfl⟩ := pure_run_ok read
      obtain ⟨rfl, rfl⟩ := Prod.mk.inj same
      exact made_by_error before
  | succ fuel ih =>
    refine ⟨?_, parse_items_makes ih, parse_fields_makes ih⟩
    intro out v ok s s' last alive leaves before read
    obtain ⟨spaces, blank, split⟩ := split_spaces s.unread
    cases next : s.unread.dropWhile isSpace with
    | nil =>
      obtain ⟨s₁, run⟩ := parse_value_nil fuel out next
      rw [run] at read
      cases read
      exact made_by_error before
    | cons ch rest =>
      obtain ⟨line, run⟩ := parse_value_cons fuel out next
      rw [run] at read
      rw [next] at split
      have here : Utf8.read (some []) (ch :: rest) = last := by
        rw [← leaves, split, Utf8.read_valid (Utf8.valid_ascii (spaces_ascii blank))]
      exact parse_value_from_makes ih alive here before read

/-- What is made of a text that is UTF-8 is UTF-8, also where `parse` meets an error. Of a text that is cut off,
what is made without an error is. -/
theorem unicode_of_parse {message err : Bytes} {v : Value} (read : parse message = .ok (v, err))
    (valid : Utf8.Valid message ∨ err = [] ∧ ∃ rest, Utf8.Valid (message ++ rest)) : v.raw.Unicode := by
  have alive : Utf8.read (some []) message ≠ none := by
    rcases valid with whole | ⟨-, cut⟩
    · exact (Utf8.read_ne_none_iff message).mpr ⟨[], by rwa [List.append_nil]⟩
    · exact (Utf8.read_ne_none_iff message).mpr cut
  unfold parse at read
  cases run : (parse_value (2 * message.length + 2) .null).run ⟨message, false, 1⟩ with
  | error e =>
    rw [run] at read
    cases read
  | ok result =>
    obtain ⟨⟨ok, found⟩, s⟩ := result
    rw [run] at read
    have start : Leaves ⟨message, false, 1⟩ (Utf8.read (some []) message) := rfl
    have made := (parser_makes _).value alive start (fun _ member => absurd member List.not_mem_nil) run
    cases ok with
    | true =>
      cases read
      exact made.whole (.inl rfl)
    | false =>
      cases read
      rcases valid with whole | ⟨none, -⟩
      · exact made.whole (.inr ((Utf8.valid_iff message).mp whole))
      · simp [ascii] at none

end Rosbridge.picojson
