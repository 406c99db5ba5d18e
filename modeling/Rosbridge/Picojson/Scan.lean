import Rosbridge.Picojson.Parse

/-!
# What the readers take from the text

`getc` and `ungetc` move in the text that is left, `unread`. Each reader takes off the front what the
grammar of its words says, or fails if there is no such word.
-/

namespace Rosbridge.picojson

variable {α β : Type}

def Input.unread (s : Input) : Bytes := if s.consumed then s.rest.tail else s.rest

@[simp] theorem unread_consumed (ch : UInt8) (rest : Bytes) (line : Nat) :
    Input.unread ⟨ch :: rest, true, line⟩ = rest := rfl

@[simp] theorem unread_fresh (rest : Bytes) (line : Nat) : Input.unread ⟨rest, false, line⟩ = rest := rfl

theorem unread_length (s : Input) : s.unread.length ≤ s.rest.length := by
  unfold Input.unread
  split
  · rw [List.length_tail]
    omega
  · exact Nat.le_refl _

theorem bind_run_ok {f : Reader α} {g : α → Reader β} {s s' : Input} {a : α} (first : f s = .ok (a, s')) :
    (f >>= g) s = g a s' := by
  show (f s >>= fun (p : α × Input) => g p.1 p.2) = g a s'
  rw [first]
  rfl

/-- What a reader of two parts has read was read by the first part, then by the second. -/
theorem bind_run_inv {f : Reader α} {g : α → Reader β} {s t : Input} {b : β} (read : (f >>= g) s = .ok (b, t)) :
    ∃ a s', f s = .ok (a, s') ∧ g a s' = .ok (b, t) := by
  change (f s >>= fun (p : α × Input) => g p.1 p.2) = .ok (b, t) at read
  cases first : f s with
  | error e =>
    rw [first] at read
    cases read
  | ok p =>
    rw [first] at read
    exact ⟨p.1, p.2, rfl, read⟩

theorem ungetc_run (s : Input) : ungetc s = .ok ((), { s with consumed := false }) := rfl

theorem pure_run_reader (a : α) (s : Input) : (pure a : Reader α) s = .ok (a, s) := rfl

theorem pure_run_ok {a b : α} {s t : Input} (read : (pure a : Reader α) s = .ok (b, t)) : a = b ∧ s = t := by
  rw [pure_run_reader] at read
  exact ⟨congrArg Prod.fst (Except.ok.inj read), congrArg Prod.snd (Except.ok.inj read)⟩

/-! ### One character -/

theorem getc_cons {s : Input} {ch : UInt8} {rest : Bytes} (left : s.unread = ch :: rest) :
    ∃ line, getc s = .ok (some ch, ⟨ch :: rest, true, line⟩) := by
  obtain ⟨text, consumed, line⟩ := s
  cases consumed with
  | false =>
    obtain rfl : text = ch :: rest := left
    exact ⟨line, rfl⟩
  | true =>
    cases text with
    | nil => cases left
    | cons before text =>
      obtain rfl : text = ch :: rest := left
      exact ⟨_, rfl⟩

theorem getc_nil {s : Input} (left : s.unread = []) : ∃ line, getc s = .ok (none, ⟨[], false, line⟩) := by
  obtain ⟨text, consumed, line⟩ := s
  cases consumed with
  | false =>
    obtain rfl : text = [] := left
    exact ⟨line, rfl⟩
  | true =>
    cases text with
    | nil => exact ⟨line, rfl⟩
    | cons before text =>
      obtain rfl : text = [] := left
      exact ⟨_, rfl⟩

/-! ### Spaces -/

theorem skip_ws_loop_run (fuel : Nat) {s : Input} (enough : s.unread.length < fuel) :
    ∃ s', skip_ws_loop fuel s = .ok ((), s') ∧ s'.unread = s.unread.dropWhile isSpace := by
  induction fuel generalizing s with
  | zero => omega
  | succ fuel ih =>
    unfold skip_ws_loop
    cases left : s.unread with
    | nil =>
      obtain ⟨line, read⟩ := getc_nil left
      exact ⟨_, by rw [bind_run_ok read]; rfl, rfl⟩
    | cons ch rest =>
      obtain ⟨line, read⟩ := getc_cons left
      rw [bind_run_ok read]
      dsimp only
      by_cases space : isSpace ch = true
      · rw [if_pos space, List.dropWhile_cons, if_pos space]
        refine ih ?_
        rw [left, List.length_cons] at enough
        exact Nat.lt_of_succ_lt_succ enough
      · rw [if_neg space, List.dropWhile_cons, if_neg space]
        exact ⟨_, ungetc_run _, rfl⟩

theorem skip_ws_run (s : Input) :
    ∃ s', skip_ws s = .ok ((), s') ∧ s'.unread = s.unread.dropWhile isSpace := by
  have enough : s.unread.length < s.rest.length + 1 := Nat.lt_succ_of_le (unread_length s)
  exact skip_ws_loop_run _ enough

/-- `expect` skips spaces, and takes the character if it is next. -/
theorem expect_run (expected : Char) (s : Input) : ∃ b s', expect expected s = .ok (b, s') ∧
    (b = true ∧ s.unread.dropWhile isSpace = byte expected :: s'.unread ∨
      b = false ∧ s.unread.dropWhile isSpace = s'.unread ∧ s'.unread.head? ≠ some (byte expected)) := by
  obtain ⟨s', skipped, left⟩ := skip_ws_run s
  unfold expect
  rw [bind_run_ok skipped, ← left]
  cases next : s'.unread with
  | nil =>
    obtain ⟨line, read⟩ := getc_nil next
    rw [bind_run_ok read]
    exact ⟨false, _, rfl, .inr ⟨rfl, rfl, by simp⟩⟩
  | cons ch rest =>
    obtain ⟨line, read⟩ := getc_cons next
    rw [bind_run_ok read]
    by_cases same : ch = byte expected
    · rw [if_pos (congrArg some same), ← same]
      exact ⟨true, _, rfl, .inl ⟨rfl, rfl⟩⟩
    · rw [if_neg (by simpa using same)]
      exact ⟨false, _, rfl, .inr ⟨rfl, rfl, by simpa using same⟩⟩

/-! ### Words -/

theorem matches_run (pattern : List Char) (s : Input) : ∃ b s', matches_ pattern s = .ok (b, s') ∧
    ∀ rest, (b = true ∧ s'.unread = rest) ↔ s.unread = pattern.map byte ++ rest := by
  induction pattern generalizing s with
  | nil => exact ⟨true, s, rfl, by simp⟩
  | cons p pattern ih =>
    unfold matches_
    cases next : s.unread with
    | nil =>
      obtain ⟨line, read⟩ := getc_nil next
      rw [bind_run_ok read]
      exact ⟨false, _, rfl, by simp⟩
    | cons ch rest =>
      obtain ⟨line, read⟩ := getc_cons next
      rw [bind_run_ok read]
      by_cases same : ch = byte p
      · rw [if_pos (congrArg some same)]
        obtain ⟨b, s', matched, iff⟩ := ih ⟨ch :: rest, true, line⟩
        exact ⟨b, s', matched, by simpa [same] using iff⟩
      · rw [if_neg (by simpa using same)]
        exact ⟨false, _, rfl, by simp [same]⟩

theorem parse_number_loop_run (fuel : Nat) (num_str : Bytes) {s : Input} (enough : s.unread.length < fuel) :
    ∃ s', parse_number_loop fuel num_str s = .ok (num_str ++ s.unread.takeWhile isNumeric, s') ∧
      s'.unread = s.unread.dropWhile isNumeric := by
  induction fuel generalizing s num_str with
  | zero => omega
  | succ fuel ih =>
    unfold parse_number_loop
    cases left : s.unread with
    | nil =>
      obtain ⟨line, read⟩ := getc_nil left
      rw [bind_run_ok read]
      exact ⟨_, by rw [List.takeWhile_nil, List.append_nil]; rfl, rfl⟩
    | cons ch rest =>
      obtain ⟨line, read⟩ := getc_cons left
      rw [bind_run_ok read]
      dsimp only
      by_cases numeric : isNumeric ch = true
      · rw [if_pos numeric, List.dropWhile_cons, if_pos numeric, List.takeWhile_cons, if_pos numeric]
        rw [left, List.length_cons] at enough
        obtain ⟨s', run, behind⟩ :=
          ih (num_str ++ [ch]) (s := ⟨ch :: rest, true, line⟩) (Nat.lt_of_succ_lt_succ enough)
        exact ⟨s', by rw [run, List.append_assoc]; rfl, behind⟩
      · rw [if_neg numeric, List.dropWhile_cons, if_neg numeric, List.takeWhile_cons, if_neg numeric]
        exact ⟨_, by rw [List.append_nil]; rfl, rfl⟩

theorem parse_number_run (s : Input) : ∃ s', parse_number s = .ok (s.unread.takeWhile isNumeric, s') ∧
    s'.unread = s.unread.dropWhile isNumeric := by
  have enough : s.unread.length < s.rest.length + 1 := Nat.lt_succ_of_le (unread_length s)
  exact parse_number_loop_run _ [] enough

/-! ### Strings -/

def hexValue : Bytes → Nat → Option Nat
  | [], uni_ch => some uni_ch
  | ch :: digits, uni_ch => (hexDigit ch).bind fun hex => hexValue digits (uni_ch * 16 + hex)

/-- What is behind a backslash and a `u`, and its encoding: four digits, or a surrogate pair. -/
inductive CodepointText : Bytes → Bytes → Prop where
  | single {digits : Bytes} {n : Nat} (four : digits.length = 4) (value : hexValue digits 0 = some n)
      (plain : n < 0xd800 ∨ 0xdfff < n) : CodepointText digits (utf8 n)
  | pair {high low : Bytes} {first second : Nat} (four : high.length = 4) (four' : low.length = 4)
      (value : hexValue high 0 = some first) (value' : hexValue low 0 = some second)
      (leads : 0xd800 ≤ first ∧ first < 0xdc00) (trails : 0xdc00 ≤ second ∧ second ≤ 0xdfff) :
      CodepointText (high ++ byte '\\' :: byte 'u' :: low)
        (utf8 ((first - 0xd800) * 0x400 + (second - 0xdc00) + 0x10000))

/-- A string from behind its opening quote to its closing quote, and what it stands for. -/
inductive StringText : Bytes → Bytes → Prop where
  | close : StringText [byte '"'] []
  | plain {ch : UInt8} {text s : Bytes} (printable : ¬ ch < byte ' ') (quote : ch ≠ byte '"')
      (backslash : ch ≠ byte '\\') (rest : StringText text s) : StringText (ch :: text) (ch :: s)
  | escape {ch c : UInt8} {text s : Bytes} (known : unescape ch = some c) (rest : StringText text s) :
      StringText (byte '\\' :: ch :: text) (c :: s)
  | codepoint {code encoded text s : Bytes} (denotes : CodepointText code encoded) (rest : StringText text s) :
      StringText (byte '\\' :: byte 'u' :: (code ++ text)) (encoded ++ s)

theorem parse_quadhex_run (digits uni_ch : Nat) (s : Input) : ∃ r s', parse_quadhex digits uni_ch s = .ok (r, s') ∧
    ∀ n rest, (r = some n ∧ s'.unread = rest) ↔
      ∃ text, text.length = digits ∧ s.unread = text ++ rest ∧ hexValue text uni_ch = some n := by
  induction digits generalizing uni_ch s with
  | zero =>
    refine ⟨some uni_ch, s, rfl, fun n rest => ⟨?_, ?_⟩⟩
    · rintro ⟨same, rfl⟩
      exact ⟨[], rfl, rfl, same⟩
    · rintro ⟨text, none, left, value⟩
      obtain rfl := List.length_eq_zero_iff.mp none
      exact ⟨value, left⟩
  | succ digits ih =>
    unfold parse_quadhex
    cases left : s.unread with
    | nil =>
      obtain ⟨line, read⟩ := getc_nil left
      rw [bind_run_ok read]
      refine ⟨none, _, rfl, fun n rest => iff_of_false (by simp) ?_⟩
      rintro ⟨text, length, split, -⟩
      obtain ⟨rfl, -⟩ := List.append_eq_nil_iff.mp split.symm
      cases length
    | cons ch rest =>
      obtain ⟨line, read⟩ := getc_cons left
      rw [bind_run_ok read]
      dsimp only
      cases hex : hexDigit ch with
      | none =>
        refine ⟨none, _, rfl, fun n behind => iff_of_false (by simp) ?_⟩
        rintro ⟨text, length, split, value⟩
        cases text with
        | nil => cases length
        | cons first text =>
          obtain rfl : ch = first := (List.cons.inj split).1
          simp [hexValue, hex] at value
      | some value =>
        obtain ⟨r, s', run, iff⟩ := ih (uni_ch * 16 + value) ⟨ch :: rest, true, line⟩
        refine ⟨r, s', run, fun n behind => (iff n behind).trans ⟨?_, ?_⟩⟩
        · rintro ⟨text, length, split, found⟩
          refine ⟨ch :: text, congrArg Nat.succ length, congrArg (ch :: ·) split, ?_⟩
          rw [hexValue, hex]
          exact found
        · rintro ⟨text, length, split, found⟩
          cases text with
          | nil => cases length
          | cons first text =>
            obtain ⟨rfl, tail⟩ := List.cons.inj split
            rw [hexValue, hex] at found
            exact ⟨text, Nat.succ.inj length, tail, found⟩

/-- The digits of the second half of a surrogate pair. -/
theorem low_surrogate_run (s : Input) (join : Nat → Bytes) : ∃ r s', (do
      let some second ← parse_quadhex 4 0 | return none
      if second < 0xdc00 ∨ 0xdfff < second then return none
      return some (join second) : Reader (Option Bytes)) s = .ok (r, s') ∧
    ∀ encoded rest, (r = some encoded ∧ s'.unread = rest) ↔
      ∃ low second, low.length = 4 ∧ s.unread = low ++ rest ∧ hexValue low 0 = some second ∧
        (0xdc00 ≤ second ∧ second ≤ 0xdfff) ∧ encoded = join second := by
  obtain ⟨r, s', run, read⟩ := parse_quadhex_run 4 0 s
  rw [bind_run_ok run]
  cases r with
  | none =>
    refine ⟨none, s', rfl, fun encoded rest => iff_of_false (by simp) ?_⟩
    rintro ⟨low, second, four, behind, value, -⟩
    cases ((read second rest).mpr ⟨low, four, behind, value⟩).1
  | some second =>
    dsimp only
    by_cases outside : second < 0xdc00 ∨ 0xdfff < second
    · rw [if_pos outside]
      refine ⟨none, s', rfl, fun encoded rest => iff_of_false (by simp) ?_⟩
      rintro ⟨low, other, four, behind, value, trails, -⟩
      obtain ⟨same, -⟩ := (read other rest).mpr ⟨low, four, behind, value⟩
      cases same
      omega
    · rw [if_neg outside]
      refine ⟨some _, s', rfl, fun encoded rest => ⟨?_, ?_⟩⟩
      · rintro ⟨same, rfl⟩
        obtain ⟨low, four, behind, value⟩ := (read second s'.unread).mp ⟨rfl, rfl⟩
        exact ⟨low, second, four, behind, value, by omega, (Option.some.inj same).symm⟩
      · rintro ⟨low, other, four, behind, value, trails, same⟩
        obtain ⟨found, left⟩ := (read other rest).mpr ⟨low, four, behind, value⟩
        cases found
        exact ⟨congrArg some same.symm, left⟩

/-- The second half of a surrogate pair, with the backslash and the `u` before it. -/
theorem second_half_run (s : Input) (join : Nat → Bytes) : ∃ r s', (do
      if (← getc) ≠ some (byte '\\') then
        ungetc
        return none
      if (← getc) ≠ some (byte 'u') then
        ungetc
        return none
      let some second ← parse_quadhex 4 0 | return none
      if second < 0xdc00 ∨ 0xdfff < second then return none
      return some (join second) : Reader (Option Bytes)) s = .ok (r, s') ∧
    ∀ encoded rest, (r = some encoded ∧ s'.unread = rest) ↔
      ∃ low second, low.length = 4 ∧ s.unread = byte '\\' :: byte 'u' :: (low ++ rest) ∧
        hexValue low 0 = some second ∧ (0xdc00 ≤ second ∧ second ≤ 0xdfff) ∧ encoded = join second := by
  have fails {t : Input} (wrong : ∀ rest, s.unread ≠ byte '\\' :: byte 'u' :: rest) (encoded rest : Bytes) :
      ((none : Option Bytes) = some encoded ∧ t.unread = rest) ↔
        ∃ low second, low.length = 4 ∧ s.unread = byte '\\' :: byte 'u' :: (low ++ rest) ∧
          hexValue low 0 = some second ∧ (0xdc00 ≤ second ∧ second ≤ 0xdfff) ∧ encoded = join second := by
    refine iff_of_false (by simp) ?_
    rintro ⟨low, second, -, behind, -⟩
    exact wrong _ behind
  cases left : s.unread with
  | nil =>
    obtain ⟨line, read⟩ := getc_nil left
    rw [bind_run_ok read]
    rw [left] at fails
    exact ⟨none, _, rfl, fails (by simp)⟩
  | cons ch rest₁ =>
    obtain ⟨line, read⟩ := getc_cons left
    rw [bind_run_ok read]
    rw [left] at fails
    by_cases backslash : ch = byte '\\'
    · subst backslash
      rw [if_neg (by simp)]
      cases rest₁ with
      | nil =>
        obtain ⟨line, read⟩ := getc_nil (s := ⟨[byte '\\'], true, line⟩) rfl
        rw [bind_run_ok read]
        exact ⟨none, _, rfl, fails (by simp)⟩
      | cons u rest₂ =>
        obtain ⟨line, read⟩ := getc_cons (s := ⟨byte '\\' :: u :: rest₂, true, line⟩) rfl
        rw [bind_run_ok read]
        by_cases isU : u = byte 'u'
        · subst isU
          rw [if_neg (by simp)]
          obtain ⟨r, s', run, read⟩ := low_surrogate_run ⟨byte 'u' :: rest₂, true, line⟩ join
          exact ⟨r, s', run, by simpa using read⟩
        · rw [if_pos (by simpa using isU)]
          exact ⟨none, _, rfl, fails (by simp [isU])⟩
    · rw [if_pos (by simpa using backslash)]
      exact ⟨none, _, rfl, fails (by simp [backslash])⟩

/-- After a first half only a pair is a character. -/
theorem codepoint_pair_iff {s s' : Input} {first : Nat} (leads : 0xd800 ≤ first ∧ first < 0xdc00)
    (read : ∀ n rest, (some first = some n ∧ s'.unread = rest) ↔
      ∃ text, text.length = 4 ∧ s.unread = text ++ rest ∧ hexValue text 0 = some n) (encoded rest : Bytes) :
    (∃ text, s.unread = text ++ rest ∧ CodepointText text encoded) ↔
      ∃ low second, low.length = 4 ∧ s'.unread = byte '\\' :: byte 'u' :: (low ++ rest) ∧
        hexValue low 0 = some second ∧ (0xdc00 ≤ second ∧ second ≤ 0xdfff) ∧
        encoded = utf8 ((first - 0xd800) * 0x400 + (second - 0xdc00) + 0x10000) := by
  constructor
  · rintro ⟨text, left, code⟩
    cases code with
    | single four value plain =>
      obtain ⟨same, -⟩ := (read _ rest).mpr ⟨text, four, left, value⟩
      cases same
      omega
    | @pair high low _ second four four' value value' _ trails =>
      rw [List.append_assoc] at left
      obtain ⟨same, behind⟩ := (read _ _).mpr ⟨high, four, left, value⟩
      cases same
      exact ⟨low, second, four', behind, value', trails, rfl⟩
  · rintro ⟨low, second, four', behind, value', trails, same⟩
    rw [same]
    obtain ⟨high, four, left, value⟩ := (read first s'.unread).mp ⟨rfl, rfl⟩
    refine ⟨_, ?_, .pair four four' value value' leads trails⟩
    rw [left, behind, List.append_assoc]
    rfl

theorem parse_codepoint_run (s : Input) : ∃ r s', parse_codepoint s = .ok (r, s') ∧
    ∀ encoded rest, (r = some encoded ∧ s'.unread = rest) ↔
      ∃ text, s.unread = text ++ rest ∧ CodepointText text encoded := by
  obtain ⟨r, s₁, run, read⟩ := parse_quadhex_run 4 0 s
  unfold parse_codepoint
  rw [bind_run_ok run]
  cases r with
  | none =>
    refine ⟨none, s₁, rfl, fun encoded rest => iff_of_false (by simp) ?_⟩
    rintro ⟨text, left, code⟩
    cases code with
    | single four value plain => cases ((read _ rest).mpr ⟨text, four, left, value⟩).1
    | pair four four' value =>
      rw [List.append_assoc] at left
      cases ((read _ _).mpr ⟨_, four, left, value⟩).1
  | some first =>
    dsimp only
    by_cases plain : first < 0xd800 ∨ 0xdfff < first
    · rw [if_pos plain]
      refine ⟨some (utf8 first), s₁, rfl, fun encoded rest => ⟨?_, ?_⟩⟩
      · rintro ⟨same, rfl⟩
        cases same
        obtain ⟨text, four, left, value⟩ := (read first s₁.unread).mp ⟨rfl, rfl⟩
        exact ⟨text, left, .single four value plain⟩
      · rintro ⟨text, left, code⟩
        cases code with
        | single four value _ =>
          obtain ⟨same, behind⟩ := (read _ rest).mpr ⟨text, four, left, value⟩
          cases same
          exact ⟨rfl, behind⟩
        | pair four four' value value' leads =>
          rw [List.append_assoc] at left
          obtain ⟨same, -⟩ := (read _ _).mpr ⟨_, four, left, value⟩
          cases same
          omega
    rw [if_neg plain]
    by_cases trailing : 0xdc00 ≤ first
    · rw [if_pos trailing]
      refine ⟨none, s₁, rfl, fun encoded rest => iff_of_false (by simp) ?_⟩
      rintro ⟨text, left, code⟩
      cases code with
      | single four value single =>
        obtain ⟨same, -⟩ := (read _ rest).mpr ⟨text, four, left, value⟩
        cases same
        exact plain single
      | pair four four' value value' leads =>
        rw [List.append_assoc] at left
        obtain ⟨same, -⟩ := (read _ _).mpr ⟨_, four, left, value⟩
        cases same
        omega
    rw [if_neg trailing]
    simp only [codepoint_pair_iff (by omega) read]
    obtain ⟨r, s₂, run, read⟩ :=
      second_half_run s₁ fun second => utf8 ((first - 0xd800) * 0x400 + (second - 0xdc00) + 0x10000)
    exact ⟨r, s₂, run, read⟩

/-! ### The loop over a string -/

inductive StringCases (ch : UInt8) (text t : Bytes) : Prop where
  | close (quote : ch = byte '"') (text_nil : text = []) (t_nil : t = [])
  | plain (t' : Bytes) (printable : ¬ ch < byte ' ') (quote : ch ≠ byte '"') (backslash : ch ≠ byte '\\')
      (same : t = ch :: t') (rest : StringText text t')
  | escape (ch' c : UInt8) (text' t' : Bytes) (backslash : ch = byte '\\') (split : text = ch' :: text')
      (known : unescape ch' = some c) (same : t = c :: t') (rest : StringText text' t')
  | codepoint (code encoded text' t' : Bytes) (backslash : ch = byte '\\')
      (split : text = byte 'u' :: (code ++ text')) (denotes : CodepointText code encoded) (same : t = encoded ++ t')
      (rest : StringText text' t')

theorem stringText_cons {ch : UInt8} {text t : Bytes} (denotes : StringText (ch :: text) t) :
    StringCases ch text t := by
  cases denotes with
  | close => exact .close rfl rfl rfl
  | plain printable quote backslash rest => exact .plain _ printable quote backslash rfl rest
  | escape known rest => exact .escape _ _ _ _ rfl rfl known rfl rest
  | codepoint denotes rest => exact .codepoint _ _ _ _ rfl rfl denotes rfl rest

theorem string_of_cons {ch : UInt8} {text t rest rest₁ : Bytes} (split : ch :: rest₁ = text ++ rest)
    (denotes : StringText text t) : ∃ text', rest₁ = text' ++ rest ∧ StringCases ch text' t := by
  cases text with
  | nil => cases denotes
  | cons first text =>
    obtain ⟨rfl, behind⟩ := List.cons.inj split
    exact ⟨text, behind, stringText_cons denotes⟩

/-- What one round of the loop takes, `pre`, stands for `piece`. -/
theorem string_extend {here there : Bytes} {s' : Input} {ok : Bool} {found : Bytes} (pre piece : Bytes)
    (left : here = pre ++ there)
    (extends_ : ∀ text t, StringText text t → StringText (pre ++ text) (piece ++ t))
    (inverts : ∀ text t rest, here = text ++ rest → StringText text t →
      ∃ text' t', there = text' ++ rest ∧ StringText text' t' ∧ t = piece ++ t')
    (behind : ∀ t rest, (ok = true ∧ found = t ∧ s'.unread = rest) ↔
      ∃ text, there = text ++ rest ∧ StringText text t) (t rest : Bytes) :
    (ok = true ∧ piece ++ found = t ∧ s'.unread = rest) ↔ ∃ text, here = text ++ rest ∧ StringText text t := by
  constructor
  · rintro ⟨accepted, rfl, same⟩
    obtain ⟨text, split, denotes⟩ := (behind found rest).mp ⟨accepted, rfl, same⟩
    exact ⟨pre ++ text, by rw [left, split, List.append_assoc], extends_ text found denotes⟩
  · rintro ⟨text, split, denotes⟩
    obtain ⟨text', t', split', denotes', rfl⟩ := inverts text t rest split denotes
    obtain ⟨accepted, rfl, same⟩ := (behind t' rest).mpr ⟨text', split', denotes'⟩
    exact ⟨accepted, rfl, same⟩

/-- Behind a backslash, and not before a `u`, is a character that `unescape` knows. -/
theorem string_of_escape {ch : UInt8} {text t rest rest₂ : Bytes} (other : ch ≠ byte 'u')
    (split : byte '\\' :: ch :: rest₂ = text ++ rest) (denotes : StringText text t) :
    ∃ c text' t', unescape ch = some c ∧ rest₂ = text' ++ rest ∧ StringText text' t' ∧ t = [c] ++ t' := by
  obtain ⟨text', behind, cases_⟩ := string_of_cons split denotes
  cases cases_ with
  | close quote => exact absurd quote (by decide)
  | plain t' _ _ backslash => exact absurd rfl backslash
  | escape ch' c text'' t' _ split' known same rest' =>
    rw [split'] at behind
    obtain ⟨rfl, left⟩ := List.cons.inj behind
    exact ⟨c, text'', t', known, left, rest', same⟩
  | codepoint code encoded text'' t' _ split' =>
    rw [split'] at behind
    exact absurd (List.cons.inj behind).1 other

theorem string_of_codepoint {text t rest rest₂ : Bytes}
    (split : byte '\\' :: byte 'u' :: rest₂ = text ++ rest) (denotes : StringText text t) :
    ∃ code encoded text' t', CodepointText code encoded ∧ rest₂ = code ++ (text' ++ rest) ∧
      StringText text' t' ∧ t = encoded ++ t' := by
  obtain ⟨text', behind, cases_⟩ := string_of_cons split denotes
  cases cases_ with
  | close quote => exact absurd quote (by decide)
  | plain t' _ _ backslash => exact absurd rfl backslash
  | escape ch' c text'' t' _ split' known =>
    have unknown : unescape (byte 'u') = none := by decide
    rw [split'] at behind
    obtain ⟨rfl, -⟩ := List.cons.inj behind
    rw [unknown] at known
    cases known
  | codepoint code encoded text'' t' _ split' denotes' same rest' =>
    rw [split', List.cons_append, List.append_assoc] at behind
    exact ⟨code, encoded, text'', t', denotes', (List.cons.inj behind).2, rest', same⟩

def LoopReads (fuel : Nat) : Prop :=
  ∀ (out : Bytes) {s : Input}, s.unread.length < fuel →
    ∃ ok found s', parse_string_loop fuel out s = .ok ((ok, out ++ found), s') ∧
      ∀ t rest, (ok = true ∧ found = t ∧ s'.unread = rest) ↔
        ∃ text, s.unread = text ++ rest ∧ StringText text t

/-- The round of the loop behind a backslash and a `u`. -/
theorem codepoint_run {fuel : Nat} (reads : LoopReads fuel) (out : Bytes) {s : Input}
    (enough : s.unread.length < fuel) : ∃ ok found s', (do
      match ← parse_codepoint with
      | none => return (false, out)
      | some encoded => parse_string_loop fuel (out ++ encoded) : Reader (Bool × Bytes)) s =
        .ok ((ok, out ++ found), s') ∧
      ∀ t rest, (ok = true ∧ found = t ∧ s'.unread = rest) ↔
        ∃ text, byte '\\' :: byte 'u' :: s.unread = text ++ rest ∧ StringText text t := by
  obtain ⟨r, s₁, run, read⟩ := parse_codepoint_run s
  rw [bind_run_ok run]
  cases r with
  | none =>
    refine ⟨false, [], _, by rw [List.append_nil]; rfl, fun t rest => iff_of_false (by simp) ?_⟩
    rintro ⟨text, split, denotes⟩
    obtain ⟨code, encoded, text', t', denotes', left, -⟩ := string_of_codepoint split denotes
    cases ((read encoded _).mpr ⟨code, left, denotes'⟩).1
  | some encoded =>
    obtain ⟨code, split₁, denotes₁⟩ := (read encoded s₁.unread).mp ⟨rfl, rfl⟩
    have shorter : s₁.unread.length < fuel := by
      rw [split₁, List.length_append] at enough
      omega
    obtain ⟨ok, found, s', run, behind⟩ := reads (out ++ encoded) shorter
    refine ⟨ok, encoded ++ found, s', by rw [← List.append_assoc]; exact run, ?_⟩
    refine string_extend (byte '\\' :: byte 'u' :: code) _ (by rw [split₁]; rfl)
      (fun text t => .codepoint denotes₁) ?_ behind
    intro text t rest split denotes
    obtain ⟨code', encoded', text', t', denotes', left, rest', same⟩ := string_of_codepoint split denotes
    obtain ⟨same', left'⟩ := (read encoded' _).mpr ⟨code', left, denotes'⟩
    cases same'
    exact ⟨text', t', left', rest', same⟩

/-- The round of the loop behind a backslash. -/
theorem escape_run {fuel : Nat} (reads : LoopReads fuel) (out : Bytes) {s : Input}
    (enough : s.unread.length < fuel) : ∃ ok found s', (do
      match ← getc with
      | none => return (false, out)
      | some ch =>
        if ch = byte 'u' then
          match ← parse_codepoint with
          | none => return (false, out)
          | some encoded => parse_string_loop fuel (out ++ encoded)
        else
          match unescape ch with
          | none => return (false, out)
          | some ch => parse_string_loop fuel (out ++ [ch]) : Reader (Bool × Bytes)) s =
        .ok ((ok, out ++ found), s') ∧
      ∀ t rest, (ok = true ∧ found = t ∧ s'.unread = rest) ↔
        ∃ text, byte '\\' :: s.unread = text ++ rest ∧ StringText text t := by
  cases left : s.unread with
  | nil =>
    obtain ⟨line, read⟩ := getc_nil left
    rw [bind_run_ok read]
    refine ⟨false, [], _, by rw [List.append_nil]; rfl, fun t rest => iff_of_false (by simp) ?_⟩
    rintro ⟨text, split, denotes⟩
    obtain ⟨text', behind, cases_⟩ := string_of_cons split denotes
    obtain ⟨rfl, -⟩ := List.append_eq_nil_iff.mp behind.symm
    cases cases_ with
    | close quote => exact absurd quote (by decide)
    | plain t' _ _ backslash => exact absurd rfl backslash
    | escape ch' c text' t' _ split => cases split
    | codepoint code encoded text' t' _ split => cases split
  | cons ch rest₂ =>
    obtain ⟨line, read⟩ := getc_cons left
    rw [bind_run_ok read]
    dsimp only
    rw [left, List.length_cons] at enough
    by_cases isU : ch = byte 'u'
    · subst isU
      rw [if_pos rfl]
      exact codepoint_run reads out (s := ⟨byte 'u' :: rest₂, true, line⟩) (Nat.lt_of_succ_lt enough)
    · rw [if_neg isU]
      cases known : unescape ch with
      | none =>
        refine ⟨false, [], _, by rw [List.append_nil]; rfl, fun t rest => iff_of_false (by simp) ?_⟩
        rintro ⟨text, split, denotes⟩
        obtain ⟨c, -, -, known', -⟩ := string_of_escape isU split denotes
        rw [known] at known'
        cases known'
      | some c =>
        obtain ⟨ok, found, s', run, behind⟩ :=
          reads (out ++ [c]) (s := ⟨ch :: rest₂, true, line⟩) (Nat.lt_of_succ_lt enough)
        refine ⟨ok, [c] ++ found, s', by rw [← List.append_assoc]; exact run, ?_⟩
        refine string_extend [byte '\\', ch] _ rfl (fun text t => .escape known) ?_ behind
        intro text t rest split denotes
        obtain ⟨c', text', t', known', left', rest', same⟩ := string_of_escape isU split denotes
        rw [known] at known'
        cases known'
        exact ⟨text', t', left', rest', same⟩

theorem parse_string_loop_run (fuel : Nat) : LoopReads fuel := by
  induction fuel with
  | zero => exact fun out s enough => absurd enough (Nat.not_lt_zero _)
  | succ fuel ih =>
    intro out s enough
    have fails {s' : Input} (none : ∀ text t rest, s.unread = text ++ rest → ¬ StringText text t) (t rest : Bytes) :
        (false = true ∧ ([] : Bytes) = t ∧ s'.unread = rest) ↔ ∃ text, s.unread = text ++ rest ∧ StringText text t := by
      refine iff_of_false (by simp) ?_
      rintro ⟨text, left, denotes⟩
      exact none text t rest left denotes
    unfold parse_string_loop
    cases left : s.unread with
    | nil =>
      obtain ⟨line, read⟩ := getc_nil left
      rw [bind_run_ok read]
      rw [left] at fails
      refine ⟨false, [], _, by rw [List.append_nil]; rfl, fails ?_⟩
      intro text t rest split denotes
      cases denotes <;> cases split
    | cons ch rest₁ =>
      obtain ⟨line, read⟩ := getc_cons left
      rw [bind_run_ok read]
      rw [left] at fails enough
      rw [List.length_cons] at enough
      dsimp only
      by_cases control : ch < byte ' '
      · rw [if_pos control]
        refine ⟨false, [], _, by rw [List.append_nil]; rfl, fails ?_⟩
        intro text t rest split denotes
        obtain ⟨text', -, cases_⟩ := string_of_cons split denotes
        cases cases_ with
        | close quote => exact absurd control (by rw [quote]; decide)
        | plain t' printable => exact printable control
        | escape ch' c text'' t' backslash => exact absurd control (by rw [backslash]; decide)
        | codepoint code encoded text'' t' backslash => exact absurd control (by rw [backslash]; decide)
      rw [if_neg control]
      by_cases quote : ch = byte '"'
      · subst quote
        rw [if_pos rfl]
        refine ⟨true, [], _, by rw [List.append_nil]; rfl, fun t rest => ⟨?_, ?_⟩⟩
        · rintro ⟨-, rfl, rfl⟩
          exact ⟨[byte '"'], rfl, .close⟩
        · rintro ⟨text, split, denotes⟩
          obtain ⟨text', behind, cases_⟩ := string_of_cons split denotes
          cases cases_ with
          | close _ text_nil t_nil => exact ⟨rfl, t_nil.symm, by rw [behind, text_nil]; rfl⟩
          | plain t' printable quote => exact absurd rfl quote
          | escape ch' c text'' t' backslash => exact absurd backslash (by decide)
          | codepoint code encoded text'' t' backslash => exact absurd backslash (by decide)
      rw [if_neg quote]
      by_cases backslash : ch = byte '\\'
      · rw [if_pos backslash]
        subst backslash
        exact escape_run ih out (s := ⟨byte '\\' :: rest₁, true, line⟩) (Nat.lt_of_succ_lt_succ enough)
      · rw [if_neg backslash]
        obtain ⟨ok, found, s', run, behind⟩ :=
          ih (out ++ [ch]) (s := ⟨ch :: rest₁, true, line⟩) (Nat.lt_of_succ_lt_succ enough)
        refine ⟨ok, ch :: found, s', by rw [run, List.append_assoc]; rfl, ?_⟩
        refine string_extend [ch] [ch] rfl (fun text t => .plain control quote backslash) ?_ behind
        intro text t rest split denotes
        obtain ⟨text', behind, cases_⟩ := string_of_cons split denotes
        cases cases_ with
        | close closed => exact absurd closed quote
        | plain t' _ _ _ same rest => exact ⟨text', t', behind, rest, same⟩
        | escape ch' c text'' t' escaped => exact absurd escaped backslash
        | codepoint code encoded text'' t' escaped => exact absurd escaped backslash

theorem parse_string_run (s : Input) : ∃ ok str s', parse_string s = .ok ((ok, str), s') ∧
    ∀ t rest, (ok = true ∧ str = t ∧ s'.unread = rest) ↔
      ∃ text, s.unread = text ++ rest ∧ StringText text t := by
  have enough : s.unread.length < s.rest.length + 1 := Nat.lt_succ_of_le (unread_length s)
  exact parse_string_loop_run _ [] enough

end Rosbridge.picojson
