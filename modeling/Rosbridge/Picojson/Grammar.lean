import Rosbridge.Picojson.Scan

/-!
# The texts that `parse` accepts

The grammar of the values, in the bytes of the text. A number is what `strtod` reads, as long as it
may be; a repeated key is written over. `parse` reads a prefix, so what follows a value is only looked
at where the value is a number.
-/

namespace Rosbridge.picojson

def Spaces (text : Bytes) : Prop := ∀ ch ∈ text, isSpace ch = true

theorem no_spaces : Spaces [] := fun _ member => absurd member List.not_mem_nil

mutual

/-- A value from its first character, which is not a space, to its last. -/
inductive ValueText : Bytes → Value → Prop where
  | null : ValueText (ascii "null") .null
  | boolean (b : Bool) : ValueText (ascii (if b then "true" else "false")) (.ofBool b)
  | string {text s : Bytes} (inside : StringText text s) : ValueText (byte '"' :: text) (.ofString s)
  | number {ch : UInt8} {text : Bytes} {n : Double} (start : (isDigit ch || ch = byte '-') = true)
      (numeric : ∀ c ∈ text, isNumeric c = true) (value : (strtod (ch :: text)).bind nearest = some n) :
      ValueText (ch :: text) (.ofDouble n)
  | emptyArray {spaces : Bytes} (blank : Spaces spaces) : ValueText (byte '[' :: (spaces ++ [byte ']'])) (.ofArray [])
  | array {spaces text : Bytes} {items : List Value} (blank : Spaces spaces) (inside : ItemsText text items) :
      ValueText (byte '[' :: (spaces ++ text)) (.ofArray items)
  | emptyObject {spaces : Bytes} (blank : Spaces spaces) :
      ValueText (byte '\x7b' :: (spaces ++ [byte '\x7d'])) (.ofObject .empty)
  | object {spaces text : Bytes} {fields : Object} (blank : Spaces spaces) (inside : FieldsText .empty text fields) :
      ValueText (byte '\x7b' :: (spaces ++ text)) (.ofObject fields)

/-- The items from there to the closing bracket. -/
inductive ItemsText : Bytes → List Value → Prop where
  | last {text after : Bytes} {item : Value} (here : ValueText text item) (blank : Spaces after) :
      ItemsText (text ++ (after ++ [byte ']'])) [item]
  | more {text after before behind : Bytes} {item : Value} {items : List Value} (here : ValueText text item)
      (blank : Spaces after) (blank' : Spaces before) (rest : ItemsText behind items) :
      ItemsText (text ++ (after ++ byte ',' :: (before ++ behind))) (item :: items)

inductive FieldText : Bytes → Bytes → Value → Prop where
  | mk {name key before around text : Bytes} {value : Value} (named : StringText name key) (blank : Spaces before)
      (blank' : Spaces around) (here : ValueText text value) :
      FieldText (byte '"' :: (name ++ (before ++ byte ':' :: (around ++ text)))) key value

/-- The fields from there to the closing brace, into an object that has the fields before. -/
inductive FieldsText : Object → Bytes → Object → Prop where
  | last {fields : Object} {text after key : Bytes} {value : Value} (here : FieldText text key value)
      (blank : Spaces after) : FieldsText fields (text ++ (after ++ [byte '\x7d'])) (fields.insert key value)
  | more {fields fields' : Object} {text after before behind key : Bytes} {value : Value}
      (here : FieldText text key value) (blank : Spaces after) (blank' : Spaces before)
      (rest : FieldsText (fields.insert key value) behind fields') :
      FieldsText fields (text ++ (after ++ byte ',' :: (before ++ behind))) fields'

end

def Follows (v : Value) (rest : Bytes) : Prop :=
  match v.raw with
  | .number _ => ∀ ch ∈ rest.head?, isNumeric ch = false
  | _ => True

theorem follows_of_ends (v : Value) {rest : Bytes} (ends : ∀ ch ∈ rest.head?, isNumeric ch = false) :
    Follows v rest := by
  unfold Follows
  split
  · exact ends
  · trivial

/-! ### Spaces between the words -/

theorem spaces_dropWhile {spaces text : Bytes} (blank : Spaces spaces)
    (start : ∀ ch ∈ text.head?, isSpace ch = false) : (spaces ++ text).dropWhile isSpace = text := by
  rw [List.dropWhile_append_of_pos blank]
  cases text with
  | nil => rfl
  | cons ch rest => rw [List.dropWhile_cons_of_neg (by simp [start ch rfl])]

theorem split_spaces (text : Bytes) : ∃ spaces, Spaces spaces ∧ text = spaces ++ text.dropWhile isSpace :=
  ⟨text.takeWhile isSpace, fun _ => List.mem_takeWhile_imp, List.takeWhile_append_dropWhile.symm⟩

theorem expect_ok {expected : Char} {s s' : Input} (read : expect expected s = .ok (true, s')) :
    ∃ spaces, Spaces spaces ∧ s.unread = spaces ++ byte expected :: s'.unread := by
  obtain ⟨b, s₁, run, taken | ⟨rfl, -⟩⟩ := expect_run expected s
  · obtain ⟨spaces, blank, split⟩ := split_spaces s.unread
    rw [run] at read
    cases read
    exact ⟨spaces, blank, by rw [← taken.2]; exact split⟩
  · rw [run] at read
    cases read

theorem expect_no {expected : Char} {s s' : Input} (read : expect expected s = .ok (false, s')) :
    ∃ spaces, Spaces spaces ∧ s.unread = spaces ++ s'.unread := by
  obtain ⟨b, s₁, run, ⟨rfl, -⟩ | ⟨-, left, -⟩⟩ := expect_run expected s
  · rw [run] at read
    cases read
  · obtain ⟨spaces, blank, split⟩ := split_spaces s.unread
    rw [run] at read
    cases read
    exact ⟨spaces, blank, by rw [← left]; exact split⟩

theorem expect_takes {expected : Char} {s : Input} {spaces rest : Bytes} (blank : Spaces spaces)
    (visible : isSpace (byte expected) = false) (left : s.unread = spaces ++ byte expected :: rest) :
    ∃ s', expect expected s = .ok (true, s') ∧ s'.unread = rest := by
  have skipped : s.unread.dropWhile isSpace = byte expected :: rest := by
    rw [left]
    exact spaces_dropWhile blank (by simpa using visible)
  obtain ⟨b, s', run, ⟨rfl, taken⟩ | ⟨-, same, other⟩⟩ := expect_run expected s
  · exact ⟨s', run, (List.cons.inj (taken.symm.trans skipped)).2⟩
  · rw [← same, skipped] at other
    exact absurd rfl other

theorem expect_leaves (expected : Char) {s : Input} {spaces rest : Bytes} {ch : UInt8} (blank : Spaces spaces)
    (visible : isSpace ch = false) (other : ch ≠ byte expected) (left : s.unread = spaces ++ ch :: rest) :
    ∃ s', expect expected s = .ok (false, s') ∧ s'.unread = ch :: rest := by
  have skipped : s.unread.dropWhile isSpace = ch :: rest := by
    rw [left]
    exact spaces_dropWhile blank (by simpa using visible)
  obtain ⟨b, s', run, ⟨-, taken⟩ | ⟨rfl, same, -⟩⟩ := expect_run expected s
  · exact absurd (List.cons.inj (skipped.symm.trans taken)).1 other
  · exact ⟨s', run, same.symm.trans skipped⟩

/-! ### A value by its first character -/

def parse_value_from (fuel : Nat) (out : Value) (ch : UInt8) : Reader (Bool × Value) := do
  if ch = byte 'n' then
    return if ← matches_ "ull".toList then (true, .null) else (false, out)
  else if ch = byte 'f' then
    return if ← matches_ "alse".toList then (true, .ofBool false) else (false, out)
  else if ch = byte 't' then
    return if ← matches_ "rue".toList then (true, .ofBool true) else (false, out)
  else if ch = byte '"' then
    let (ok, s) ← parse_string
    return (ok, .ofString s)
  else if ch = byte '[' then
    if ← expect ']' then return (true, .ofArray [])
    parse_items fuel []
  else if ch = byte '\x7b' then
    if ← expect '\x7d' then return (true, .ofObject .empty)
    parse_fields fuel .empty
  else if isDigit ch || ch = byte '-' then
    ungetc
    set_number out (← parse_number)
  else
    ungetc
    return (false, out)

theorem parse_value_cons (fuel : Nat) (out : Value) {s : Input} {ch : UInt8} {rest : Bytes}
    (next : s.unread.dropWhile isSpace = ch :: rest) :
    ∃ line, parse_value (fuel + 1) out s = parse_value_from fuel out ch ⟨ch :: rest, true, line⟩ := by
  obtain ⟨s₁, skipped, left⟩ := skip_ws_run s
  obtain ⟨line, read⟩ := getc_cons (left.trans next)
  unfold parse_value
  rw [bind_run_ok skipped, bind_run_ok read]
  exact ⟨line, rfl⟩

theorem parse_value_nil (fuel : Nat) (out : Value) {s : Input} (next : s.unread.dropWhile isSpace = []) :
    ∃ s', parse_value (fuel + 1) out s = .ok ((false, out), s') := by
  obtain ⟨s₁, skipped, left⟩ := skip_ws_run s
  obtain ⟨line, read⟩ := getc_nil (left.trans next)
  unfold parse_value
  rw [bind_run_ok skipped, bind_run_ok read]
  exact ⟨_, rfl⟩

/-! ### What is accepted is in the grammar -/

def Took (s s' : Input) (text : Bytes) : Prop :=
  ∃ spaces, Spaces spaces ∧ s.unread = spaces ++ (text ++ s'.unread)

theorem word_accepted {pattern : List Char} {out v w : Value} {s s' : Input}
    (read : (do return if ← matches_ pattern then (true, v) else (false, out) : Reader (Bool × Value)) s =
      .ok ((true, w), s')) : v = w ∧ s.unread = pattern.map byte ++ s'.unread := by
  obtain ⟨b, s₁, run, left⟩ := matches_run pattern s
  rw [bind_run_ok run] at read
  obtain ⟨same, rfl⟩ := pure_run_ok read
  cases b with
  | false => cases same
  | true => exact ⟨congrArg Prod.snd same, (left s₁.unread).mp ⟨rfl, rfl⟩⟩

theorem set_number_accepted {out v : Value} {num_str : Bytes} {s s' : Input}
    (read : set_number out num_str s = .ok ((true, v), s')) :
    ∃ n, (strtod num_str).bind nearest = some n ∧ v = .ofDouble n ∧ s = s' := by
  unfold set_number at read
  cases value : strtod num_str with
  | none =>
    rw [value] at read
    cases (pure_run_ok read).1
  | some q =>
    rw [value] at read
    dsimp only at read
    cases rounded : nearest q with
    | none =>
      rw [rounded] at read
      cases read
    | some n =>
      rw [rounded] at read
      obtain ⟨same, rfl⟩ := pure_run_ok read
      exact ⟨n, rounded, (congrArg Prod.snd same).symm, rfl⟩

structure Accepts (fuel : Nat) : Prop where
  value {out v : Value} {s s' : Input} (read : parse_value fuel out s = .ok ((true, v), s')) :
    ∃ text, Took s s' text ∧ ValueText text v ∧ Follows v s'.unread
  items {items : List Value} {v : Value} {s s' : Input} (read : parse_items fuel items s = .ok ((true, v), s')) :
    ∃ text more, Took s s' text ∧ ItemsText text more ∧ v = .ofArray (items ++ more)
  fields {fields : Object} {v : Value} {s s' : Input} (read : parse_fields fuel fields s = .ok ((true, v), s')) :
    ∃ text fields', Took s s' text ∧ FieldsText fields text fields' ∧ v = .ofObject fields'

theorem parse_value_from_accepted {fuel : Nat} (ih : Accepts fuel) {out v : Value} {ch : UInt8} {rest : Bytes}
    {line : Nat} {s' : Input} (read : parse_value_from fuel out ch ⟨ch :: rest, true, line⟩ = .ok ((true, v), s')) :
    ∃ text, ch :: rest = text ++ s'.unread ∧ ValueText text v ∧ Follows v s'.unread := by
  unfold parse_value_from at read
  by_cases isNull : ch = byte 'n'
  · rw [if_pos isNull] at read
    obtain ⟨rfl, left⟩ := word_accepted read
    exact ⟨ascii "null", by rw [isNull, show rest = _ from left]; rfl, .null, trivial⟩
  rw [if_neg isNull] at read
  by_cases isFalse : ch = byte 'f'
  · rw [if_pos isFalse] at read
    obtain ⟨rfl, left⟩ := word_accepted read
    exact ⟨ascii "false", by rw [isFalse, show rest = _ from left]; rfl, .boolean false, trivial⟩
  rw [if_neg isFalse] at read
  by_cases isTrue : ch = byte 't'
  · rw [if_pos isTrue] at read
    obtain ⟨rfl, left⟩ := word_accepted read
    exact ⟨ascii "true", by rw [isTrue, show rest = _ from left]; rfl, .boolean true, trivial⟩
  rw [if_neg isTrue] at read
  by_cases isQuote : ch = byte '"'
  · rw [if_pos isQuote] at read
    obtain ⟨ok, t, s₁, run, left⟩ := parse_string_run ⟨ch :: rest, true, line⟩
    rw [bind_run_ok run] at read
    obtain ⟨same, rfl⟩ := pure_run_ok read
    obtain ⟨rfl, rfl⟩ := Prod.mk.inj same
    obtain ⟨text, split, inside⟩ := (left t s₁.unread).mp ⟨rfl, rfl, rfl⟩
    exact ⟨byte '"' :: text, by rw [isQuote, show rest = _ from split]; rfl, .string inside, trivial⟩
  rw [if_neg isQuote] at read
  by_cases isBracket : ch = byte '['
  · rw [if_pos isBracket] at read
    obtain ⟨b, s₁, first, read⟩ := bind_run_inv read
    cases b with
    | true =>
      obtain ⟨same, rfl⟩ := pure_run_ok read
      obtain ⟨-, rfl⟩ := Prod.mk.inj same
      obtain ⟨spaces, blank, split⟩ := expect_ok first
      exact ⟨_, by rw [isBracket, show rest = _ from split]; simp, .emptyArray blank, trivial⟩
    | false =>
      obtain ⟨spaces, blank, split⟩ := expect_no first
      obtain ⟨text, more, ⟨spaces', blank', split'⟩, inside, rfl⟩ := ih.items read
      have blanks : Spaces (spaces ++ spaces') := List.forall_mem_append.mpr ⟨blank, blank'⟩
      exact ⟨_, by rw [isBracket, show rest = _ from split, split']; simp, .array blanks inside, trivial⟩
  rw [if_neg isBracket] at read
  by_cases isBrace : ch = byte '\x7b'
  · rw [if_pos isBrace] at read
    obtain ⟨b, s₁, first, read⟩ := bind_run_inv read
    cases b with
    | true =>
      obtain ⟨same, rfl⟩ := pure_run_ok read
      obtain ⟨-, rfl⟩ := Prod.mk.inj same
      obtain ⟨spaces, blank, split⟩ := expect_ok first
      exact ⟨_, by rw [isBrace, show rest = _ from split]; simp, .emptyObject blank, trivial⟩
    | false =>
      obtain ⟨spaces, blank, split⟩ := expect_no first
      obtain ⟨text, fields', ⟨spaces', blank', split'⟩, inside, rfl⟩ := ih.fields read
      have blanks : Spaces (spaces ++ spaces') := List.forall_mem_append.mpr ⟨blank, blank'⟩
      exact ⟨_, by rw [isBrace, show rest = _ from split, split']; simp, .object blanks inside, trivial⟩
  rw [if_neg isBrace] at read
  by_cases start : (isDigit ch || ch = byte '-') = true
  · rw [if_pos start, bind_run_ok (ungetc_run _)] at read
    obtain ⟨s₁, run, left⟩ := parse_number_run ⟨ch :: rest, false, line⟩
    rw [bind_run_ok run] at read
    obtain ⟨n, value, rfl, rfl⟩ := set_number_accepted read
    have first : isNumeric ch = true := by
      rcases Bool.or_eq_true_iff.mp start with digit | minus
      · rw [isNumeric, digit, Bool.true_or]
      · rw [of_decide_eq_true minus]
        decide
    rw [unread_fresh, List.takeWhile_cons_of_pos first] at value
    rw [unread_fresh, List.dropWhile_cons_of_pos first] at left
    refine ⟨_, ?_, .number start (fun _ => List.mem_takeWhile_imp) value, fun c next => ?_⟩
    · rw [left, List.cons_append, List.takeWhile_append_dropWhile]
    · have other := List.head?_dropWhile_not isNumeric rest
      rw [← left, Option.mem_def.mp next] at other
      exact other
  · rw [if_neg start, bind_run_ok (ungetc_run _)] at read
    cases (pure_run_ok read).1

theorem parse_items_accepted {fuel : Nat} (ih : Accepts fuel) {items : List Value} {v : Value} {s s' : Input}
    (read : parse_items (fuel + 1) items s = .ok ((true, v), s')) :
    ∃ text more, Took s s' text ∧ ItemsText text more ∧ v = .ofArray (items ++ more) := by
  unfold parse_items at read
  obtain ⟨⟨ok, item⟩, s₁, first, read⟩ := bind_run_inv read
  cases ok with
  | false => cases (pure_run_ok read).1
  | true =>
    obtain ⟨text, ⟨spaces, blank, split⟩, here, -⟩ := ih.value first
    obtain ⟨comma, s₂, second, read⟩ := bind_run_inv read
    cases comma with
    | true =>
      obtain ⟨after, blank₁, split₁⟩ := expect_ok second
      obtain ⟨behind, more, ⟨before, blank₂, split₂⟩, inside, rfl⟩ := ih.items read
      exact ⟨_, item :: more, ⟨spaces, blank, by rw [split, split₁, split₂]; simp⟩,
        .more here blank₁ blank₂ inside, by rw [List.append_assoc]; rfl⟩
    | false =>
      obtain ⟨after, blank₁, split₁⟩ := expect_no second
      obtain ⟨close, s₃, third, read⟩ := bind_run_inv read
      obtain ⟨same, rfl⟩ := pure_run_ok read
      obtain ⟨rfl, rfl⟩ := Prod.mk.inj same
      obtain ⟨after', blank₂, split₂⟩ := expect_ok third
      have blanks : Spaces (after ++ after') := List.forall_mem_append.mpr ⟨blank₁, blank₂⟩
      exact ⟨_, [item], ⟨spaces, blank, by rw [split, split₁, split₂]; simp⟩, .last here blanks, rfl⟩

theorem parse_fields_accepted {fuel : Nat} (ih : Accepts fuel) {fields : Object} {v : Value} {s s' : Input}
    (read : parse_fields (fuel + 1) fields s = .ok ((true, v), s')) :
    ∃ text fields', Took s s' text ∧ FieldsText fields text fields' ∧ v = .ofObject fields' := by
  unfold parse_fields at read
  obtain ⟨opening, s₁, first, read⟩ := bind_run_inv read
  obtain ⟨ok, key, s₂, run, left⟩ := parse_string_run s₁
  cases opening with
  | false => cases (pure_run_ok read).1
  | true =>
  obtain ⟨spaces, blank, split⟩ := expect_ok first
  simp only [Bool.not_true, Bool.false_eq_true, if_false, bind_run_ok run] at read
  cases ok with
  | false => cases (pure_run_ok read).1
  | true =>
  obtain ⟨name, split₁, named⟩ := (left key s₂.unread).mp ⟨rfl, rfl, rfl⟩
  obtain ⟨colon, s₃, third, read⟩ := bind_run_inv read
  cases colon with
  | false => cases (pure_run_ok read).1
  | true =>
  obtain ⟨before, blank₁, split₂⟩ := expect_ok third
  obtain ⟨⟨ok, value⟩, s₄, fourth, read⟩ := bind_run_inv read
  cases ok with
  | false => cases (pure_run_ok read).1
  | true =>
  obtain ⟨text, ⟨around, blank₂, split₃⟩, here, -⟩ := ih.value fourth
  have field := FieldText.mk named blank₁ blank₂ here
  obtain ⟨comma, s₅, fifth, read⟩ := bind_run_inv read
  cases comma with
  | true =>
    obtain ⟨after, blank₃, split₄⟩ := expect_ok fifth
    obtain ⟨behind, fields', ⟨before', blank₄, split₅⟩, inside, rfl⟩ := ih.fields read
    exact ⟨_, fields', ⟨spaces, blank, by rw [split, split₁, split₂, split₃, split₄, split₅]; simp⟩,
      .more field blank₃ blank₄ inside, rfl⟩
  | false =>
    obtain ⟨after, blank₃, split₄⟩ := expect_no fifth
    obtain ⟨close, s₆, sixth, read⟩ := bind_run_inv read
    obtain ⟨same, rfl⟩ := pure_run_ok read
    obtain ⟨rfl, rfl⟩ := Prod.mk.inj same
    obtain ⟨after', blank₄, split₅⟩ := expect_ok sixth
    have blanks : Spaces (after ++ after') := List.forall_mem_append.mpr ⟨blank₃, blank₄⟩
    exact ⟨_, fields.insert key value,
      ⟨spaces, blank, by rw [split, split₁, split₂, split₃, split₄, split₅]; simp⟩, .last field blanks, rfl⟩

theorem accepts (fuel : Nat) : Accepts fuel := by
  induction fuel with
  | zero =>
    refine ⟨fun read => ?_, fun read => ?_, fun read => ?_⟩
    · unfold parse_value at read
      cases (pure_run_ok read).1
    · unfold parse_items at read
      cases (pure_run_ok read).1
    · unfold parse_fields at read
      cases (pure_run_ok read).1
  | succ fuel ih =>
    refine ⟨?_, parse_items_accepted ih, parse_fields_accepted ih⟩
    intro out v s s' read
    obtain ⟨spaces, blank, split⟩ := split_spaces s.unread
    cases next : s.unread.dropWhile isSpace with
    | nil =>
      obtain ⟨s₁, run⟩ := parse_value_nil fuel out next
      rw [run] at read
      cases read
    | cons ch rest =>
      obtain ⟨line, run⟩ := parse_value_cons fuel out next
      rw [run] at read
      obtain ⟨text, left, denotes, follows⟩ := parse_value_from_accepted ih read
      exact ⟨text, ⟨spaces, blank, by rw [split, next, left]⟩, denotes, follows⟩

/-! ### What is in the grammar is accepted -/

theorem number_start {ch : UInt8} (start : (isDigit ch || ch = byte '-') = true) :
    isNumeric ch = true ∧ isSpace ch = false ∧ ch ≠ byte ']' := by
  rcases Bool.or_eq_true_iff.mp start with digit | minus
  · refine ⟨by rw [isNumeric, digit, Bool.true_or], ?_, ?_⟩
    · rw [Bool.eq_false_iff]
      intro space
      simp only [isSpace, List.mem_cons, List.not_mem_nil, or_false, decide_eq_true_eq] at space
      rcases space with rfl | rfl | rfl | rfl <;> exact absurd digit (by decide)
    · rintro rfl
      exact absurd digit (by decide)
  · rw [of_decide_eq_true minus]
    decide

/-- No text of a value begins like a space or like the end of an array. -/
theorem valueText_head {text : Bytes} {v : Value} (denotes : ValueText text v) :
    ∃ ch rest, text = ch :: rest ∧ isSpace ch = false ∧ ch ≠ byte ']' := by
  cases denotes with
  | null => exact ⟨_, _, rfl, by decide⟩
  | boolean b => cases b <;> exact ⟨_, _, rfl, by decide⟩
  | number start => exact ⟨_, _, rfl, (number_start start).2⟩
  | _ => exact ⟨_, _, rfl, by decide⟩

theorem itemsText_head {text : Bytes} {items : List Value} (denotes : ItemsText text items) :
    ∃ ch rest, text = ch :: rest ∧ isSpace ch = false ∧ ch ≠ byte ']' := by
  cases denotes with
  | last here | more here =>
    obtain ⟨ch, rest, rfl, visible, other⟩ := valueText_head here
    exact ⟨ch, _, rfl, visible, other⟩

theorem fieldsText_head {fields fields' : Object} {text : Bytes} (denotes : FieldsText fields text fields') :
    ∃ rest, text = byte '"' :: rest := by
  cases denotes with
  | last here | more here =>
    cases here with
    | mk => exact ⟨_, rfl⟩

theorem word_covered (pattern : List Char) (v out : Value) {s : Input} {rest : Bytes}
    (left : s.unread = pattern.map byte ++ rest) :
    ∃ s', (do return if ← matches_ pattern then (true, v) else (false, out) : Reader (Bool × Value)) s =
      .ok ((true, v), s') ∧ s'.unread = rest := by
  obtain ⟨b, s', run, read⟩ := matches_run pattern s
  obtain ⟨rfl, behind⟩ := (read rest).mpr left
  exact ⟨s', by rw [bind_run_ok run]; rfl, behind⟩

theorem set_number_covered (out : Value) {num_str : Bytes} {n : Double} (s : Input)
    (value : (strtod num_str).bind nearest = some n) : set_number out num_str s = .ok ((true, .ofDouble n), s) := by
  obtain ⟨q, read, rounded⟩ := Option.bind_eq_some_iff.mp value
  unfold set_number
  rw [read]
  dsimp only
  rw [rounded]
  rfl

theorem parse_value_from_number (fuel : Nat) (out : Value) {ch : UInt8}
    (start : (isDigit ch || ch = byte '-') = true) :
    parse_value_from fuel out ch = (do
      ungetc
      set_number out (← parse_number) : Reader (Bool × Value)) := by
  have other {c : UInt8} (not_number : (isDigit c || c = byte '-') = false) : ch ≠ c := by
    rintro rfl
    rw [start] at not_number
    cases not_number
  unfold parse_value_from
  rw [if_neg (other rfl), if_neg (other rfl), if_neg (other rfl), if_neg (other rfl), if_neg (other rfl),
    if_neg (other rfl), if_pos start]

theorem parse_number_covered {ch : UInt8} {text rest : Bytes} (line : Nat)
    (start : (isDigit ch || ch = byte '-') = true) (numeric : ∀ c ∈ text, isNumeric c = true)
    (ends : ∀ c ∈ rest.head?, isNumeric c = false) :
    ∃ s', parse_number ⟨ch :: (text ++ rest), false, line⟩ = .ok (ch :: text, s') ∧ s'.unread = rest := by
  obtain ⟨s', run, left⟩ := parse_number_run ⟨ch :: (text ++ rest), false, line⟩
  have every : ∀ c ∈ ch :: text, isNumeric c = true := List.forall_mem_cons.mpr ⟨(number_start start).1, numeric⟩
  have stop : rest.takeWhile isNumeric = [] ∧ rest.dropWhile isNumeric = rest := by
    cases rest with
    | nil => exact ⟨rfl, rfl⟩
    | cons c rest =>
      have other := ends c rfl
      exact ⟨by rw [List.takeWhile_cons_of_neg (by simp [other])],
        by rw [List.dropWhile_cons_of_neg (by simp [other])]⟩
  rw [unread_fresh, ← List.cons_append, List.takeWhile_append_of_pos every, stop.1, List.append_nil] at run
  rw [unread_fresh, ← List.cons_append, List.dropWhile_append_of_pos every, stop.2] at left
  exact ⟨s', run, left⟩

structure Covers (fuel : Nat) : Prop where
  value (out : Value) {v : Value} {s : Input} {spaces text rest : Bytes} (blank : Spaces spaces)
    (left : s.unread = spaces ++ (text ++ rest)) (denotes : ValueText text v) (follows : Follows v rest)
    (enough : 2 * text.length ≤ fuel) : ∃ s', parse_value fuel out s = .ok ((true, v), s') ∧ s'.unread = rest
  items (items : List Value) {more : List Value} {s : Input} {spaces text rest : Bytes} (blank : Spaces spaces)
    (left : s.unread = spaces ++ (text ++ rest)) (denotes : ItemsText text more)
    (enough : 2 * text.length ≤ fuel + 1) :
    ∃ s', parse_items fuel items s = .ok ((true, .ofArray (items ++ more)), s') ∧ s'.unread = rest
  fields {fields fields' : Object} {s : Input} {spaces text rest : Bytes} (blank : Spaces spaces)
    (left : s.unread = spaces ++ (text ++ rest)) (denotes : FieldsText fields text fields')
    (enough : 2 * text.length ≤ fuel + 1) :
    ∃ s', parse_fields fuel fields s = .ok ((true, .ofObject fields'), s') ∧ s'.unread = rest

theorem parse_value_from_covered {fuel : Nat} (ih : Covers fuel) (out : Value) {v : Value} {ch : UInt8}
    {text rest : Bytes} (line : Nat) (denotes : ValueText (ch :: text) v) (follows : Follows v rest)
    (enough : 2 * text.length ≤ fuel) :
    ∃ s', parse_value_from fuel out ch ⟨ch :: (text ++ rest), true, line⟩ = .ok ((true, v), s') ∧
      s'.unread = rest := by
  generalize whole : ch :: text = start at denotes
  unfold parse_value_from
  cases denotes with
  | null =>
    obtain ⟨rfl, rfl⟩ := List.cons.inj whole
    exact word_covered _ _ _ rfl
  | boolean b =>
    cases b with
    | true =>
      obtain ⟨rfl, rfl⟩ := List.cons.inj whole
      exact word_covered _ _ _ rfl
    | false =>
      obtain ⟨rfl, rfl⟩ := List.cons.inj whole
      exact word_covered _ _ _ rfl
  | string inside =>
    obtain ⟨rfl, rfl⟩ := List.cons.inj whole
    obtain ⟨ok, t, s', run, read⟩ := parse_string_run ⟨byte '"' :: (text ++ rest), true, line⟩
    obtain ⟨rfl, rfl, left⟩ := (read _ rest).mpr ⟨text, rfl, inside⟩
    refine ⟨s', ?_, left⟩
    rw [if_neg (by decide), if_neg (by decide), if_neg (by decide), if_pos rfl, bind_run_ok run]
    rfl
  | number start numeric value =>
    obtain ⟨rfl, rfl⟩ := List.cons.inj whole
    obtain ⟨s', run, left⟩ := parse_number_covered line start numeric follows
    refine ⟨s', ?_, left⟩
    show parse_value_from fuel out ch _ = _
    rw [parse_value_from_number fuel out start, bind_run_ok (ungetc_run _)]
    exact (bind_run_ok run).trans (set_number_covered out s' value)
  | @emptyArray spaces blank =>
    obtain ⟨rfl, rfl⟩ := List.cons.inj whole
    have behind : spaces ++ [byte ']'] ++ rest = spaces ++ byte ']' :: rest := by simp
    obtain ⟨s', run, left⟩ :=
      expect_takes (s := ⟨byte '[' :: (spaces ++ [byte ']'] ++ rest), true, line⟩) blank (by decide) behind
    refine ⟨s', ?_, left⟩
    rw [if_neg (by decide), if_neg (by decide), if_neg (by decide), if_neg (by decide), if_pos rfl, bind_run_ok run]
    rfl
  | @array spaces text' items blank inside =>
    obtain ⟨rfl, rfl⟩ := List.cons.inj whole
    obtain ⟨c, tail, rfl, visible, other⟩ := itemsText_head inside
    have behind : spaces ++ c :: tail ++ rest = spaces ++ c :: (tail ++ rest) := by simp
    obtain ⟨s₁, run, left⟩ :=
      expect_leaves ']' (s := ⟨byte '[' :: (spaces ++ c :: tail ++ rest), true, line⟩) blank visible other behind
    have less : 2 * (c :: tail).length ≤ fuel + 1 := by
      rw [List.length_append] at enough
      omega
    obtain ⟨s', run', left'⟩ := ih.items [] no_spaces left inside less
    refine ⟨s', ?_, left'⟩
    rw [if_neg (by decide), if_neg (by decide), if_neg (by decide), if_neg (by decide), if_pos rfl, bind_run_ok run]
    exact run'
  | @emptyObject spaces blank =>
    obtain ⟨rfl, rfl⟩ := List.cons.inj whole
    have behind : spaces ++ [byte '\x7d'] ++ rest = spaces ++ byte '\x7d' :: rest := by simp
    obtain ⟨s', run, left⟩ :=
      expect_takes (s := ⟨byte '\x7b' :: (spaces ++ [byte '\x7d'] ++ rest), true, line⟩) blank (by decide) behind
    refine ⟨s', ?_, left⟩
    rw [if_neg (by decide), if_neg (by decide), if_neg (by decide), if_neg (by decide), if_neg (by decide),
      if_pos rfl, bind_run_ok run]
    rfl
  | @object spaces text' fields blank inside =>
    obtain ⟨rfl, rfl⟩ := List.cons.inj whole
    obtain ⟨tail, rfl⟩ := fieldsText_head inside
    have behind : spaces ++ byte '"' :: tail ++ rest = spaces ++ byte '"' :: (tail ++ rest) := by simp
    obtain ⟨s₁, run, left⟩ :=
      expect_leaves '\x7d' (s := ⟨byte '\x7b' :: (spaces ++ byte '"' :: tail ++ rest), true, line⟩)
        blank (by decide) (by decide) behind
    have less : 2 * (byte '"' :: tail).length ≤ fuel + 1 := by
      rw [List.length_append] at enough
      omega
    obtain ⟨s', run', left'⟩ := ih.fields no_spaces left inside less
    refine ⟨s', ?_, left'⟩
    rw [if_neg (by decide), if_neg (by decide), if_neg (by decide), if_neg (by decide), if_neg (by decide),
      if_pos rfl, bind_run_ok run]
    exact run'

theorem ends_spaces {after : Bytes} (ch : UInt8) (blank : Spaces after) (other : isNumeric ch = false) (rest : Bytes) :
    ∀ c ∈ (after ++ ch :: rest).head?, isNumeric c = false := by
  intro c next
  cases after with
  | nil =>
    obtain rfl := Option.some.inj next
    exact other
  | cons space after =>
    obtain rfl := Option.some.inj next
    have is_space := blank space List.mem_cons_self
    simp only [isSpace, List.mem_cons, List.not_mem_nil, or_false, decide_eq_true_eq] at is_space
    rcases is_space with rfl | rfl | rfl | rfl <;> decide

theorem follows_spaces (v : Value) {after : Bytes} (ch : UInt8) (blank : Spaces after)
    (other : isNumeric ch = false) (rest : Bytes) : Follows v (after ++ ch :: rest) :=
  follows_of_ends v (ends_spaces ch blank other rest)

theorem parse_items_covered {fuel : Nat} (ih : Covers fuel) (items : List Value) {more : List Value} {s : Input}
    {spaces text rest : Bytes} (blank : Spaces spaces) (left : s.unread = spaces ++ (text ++ rest))
    (denotes : ItemsText text more) (enough : 2 * text.length ≤ fuel + 2) :
    ∃ s', parse_items (fuel + 1) items s = .ok ((true, .ofArray (items ++ more)), s') ∧ s'.unread = rest := by
  unfold parse_items
  cases denotes with
  | @last text after item here blank₁ =>
    simp only [List.length_append, List.length_cons, List.length_nil, List.append_assoc, List.cons_append,
      List.nil_append] at enough left
    have ends := follows_spaces item (byte ']') blank₁ (by decide)
    obtain ⟨s₁, first, left₁⟩ := ih.value .null blank left here (ends _) (by omega)
    obtain ⟨s₂, second, left₂⟩ := expect_leaves ',' blank₁ (by decide) (by decide) left₁
    obtain ⟨s₃, third, left₃⟩ := expect_takes no_spaces (by decide) left₂
    refine ⟨s₃, ?_, left₃⟩
    rw [bind_run_ok first]
    exact (bind_run_ok second).trans (bind_run_ok third)
  | @more text after before behind item more here blank₁ blank₂ inside =>
    obtain ⟨ch, tail, rfl, -⟩ := valueText_head here
    simp only [List.length_append, List.length_cons, List.append_assoc, List.cons_append] at enough left
    have ends := follows_spaces item (byte ',') blank₁ (by decide)
    obtain ⟨s₁, first, left₁⟩ := ih.value .null blank left here (ends _) (by rw [List.length_cons]; omega)
    obtain ⟨s₂, second, left₂⟩ := expect_takes blank₁ (by decide) left₁
    obtain ⟨s₃, third, left₃⟩ := ih.items (items ++ [_]) blank₂ left₂ inside (by omega)
    refine ⟨s₃, ?_, left₃⟩
    rw [bind_run_ok first]
    refine (bind_run_ok second).trans ?_
    rw [List.append_assoc] at third
    exact third

/-- `parse_fields` behind the value of the field. -/
theorem field_covered {fuel : Nat} (ih : Covers fuel) (fields : Object) {s : Input} {spaces text rest key : Bytes}
    {value : Value} (blank : Spaces spaces) (left : s.unread = spaces ++ (text ++ rest))
    (denotes : FieldText text key value) (follows : Follows value rest) (enough : 2 * text.length ≤ fuel + 2) :
    ∃ s', s'.unread = rest ∧ parse_fields (fuel + 1) fields s = (do
      if ← expect ',' then parse_fields fuel (fields.insert key value)
      else return (← expect '\x7d', .ofObject (fields.insert key value)) : Reader (Bool × Value)) s' := by
  conv in parse_fields (fuel + 1) fields => unfold parse_fields
  cases denotes with
  | @mk name key before around text value named blank₁ blank₂ here =>
    simp only [List.length_append, List.length_cons, List.append_assoc, List.cons_append] at enough left
    obtain ⟨s₁, first, left₁⟩ := expect_takes blank (by decide) left
    obtain ⟨ok, str, s₂, second, read⟩ := parse_string_run s₁
    obtain ⟨rfl, rfl, left₂⟩ := (read key _).mpr ⟨name, left₁, named⟩
    obtain ⟨s₃, third, left₃⟩ := expect_takes blank₁ (by decide) left₂
    obtain ⟨s₄, fourth, left₄⟩ := ih.value (fields.read str) blank₂ left₃ here follows (by omega)
    refine ⟨s₄, left₄, ?_⟩
    rw [bind_run_ok first]
    refine (bind_run_ok second).trans ?_
    refine (bind_run_ok third).trans ?_
    rw [if_neg (by decide), bind_run_ok fourth]
    rfl

theorem parse_fields_covered {fuel : Nat} (ih : Covers fuel) {fields fields' : Object} {s : Input}
    {spaces text rest : Bytes} (blank : Spaces spaces) (left : s.unread = spaces ++ (text ++ rest))
    (denotes : FieldsText fields text fields') (enough : 2 * text.length ≤ fuel + 2) :
    ∃ s', parse_fields (fuel + 1) fields s = .ok ((true, .ofObject fields'), s') ∧ s'.unread = rest := by
  cases denotes with
  | @last _ text after key value here blank₁ =>
    simp only [List.length_append, List.length_cons, List.length_nil, List.append_assoc, List.cons_append,
      List.nil_append] at enough left
    have ends := follows_spaces value (byte '\x7d') blank₁ (by decide)
    obtain ⟨s₁, left₁, first⟩ := field_covered ih fields blank left here (ends _) (by omega)
    obtain ⟨s₂, second, left₂⟩ := expect_leaves ',' blank₁ (by decide) (by decide) left₁
    obtain ⟨s₃, third, left₃⟩ := expect_takes no_spaces (by decide) left₂
    refine ⟨s₃, ?_, left₃⟩
    rw [first]
    exact (bind_run_ok second).trans (bind_run_ok third)
  | @more _ _ text after before behind key value here blank₁ blank₂ inside =>
    simp only [List.length_append, List.length_cons, List.append_assoc, List.cons_append] at enough left
    have ends := follows_spaces value (byte ',') blank₁ (by decide)
    obtain ⟨s₁, left₁, first⟩ := field_covered ih fields blank left here (ends _) (by omega)
    obtain ⟨s₂, second, left₂⟩ := expect_takes blank₁ (by decide) left₁
    obtain ⟨s₃, third, left₃⟩ := ih.fields blank₂ left₂ inside (by omega)
    refine ⟨s₃, ?_, left₃⟩
    rw [first]
    exact (bind_run_ok second).trans third

theorem covers (fuel : Nat) : Covers fuel := by
  induction fuel with
  | zero =>
    refine ⟨?_, ?_, ?_⟩
    · intro out v s spaces text rest _ _ denotes _ enough
      obtain ⟨ch, tail, rfl, -⟩ := valueText_head denotes
      rw [List.length_cons] at enough
      omega
    · intro items more s spaces text rest _ _ denotes enough
      obtain ⟨ch, tail, rfl, -⟩ := itemsText_head denotes
      rw [List.length_cons] at enough
      omega
    · intro fields fields' s spaces text rest _ _ denotes enough
      obtain ⟨tail, rfl⟩ := fieldsText_head denotes
      rw [List.length_cons] at enough
      omega
  | succ fuel ih =>
    refine ⟨?_, parse_items_covered ih, parse_fields_covered ih⟩
    intro out v s spaces text rest blank left denotes follows enough
    obtain ⟨ch, tail, rfl, visible, -⟩ := valueText_head denotes
    have next : s.unread.dropWhile isSpace = ch :: (tail ++ rest) := by
      rw [left]
      exact spaces_dropWhile blank (by simpa using visible)
    obtain ⟨line, run⟩ := parse_value_cons fuel out next
    rw [run]
    exact parse_value_from_covered ih out line denotes follows (by rw [List.length_cons] at enough; omega)

/-! ### `parse` -/

theorem parse_of_valueText {spaces text rest : Bytes} {v : Value} (blank : Spaces spaces)
    (denotes : ValueText text v) (follows : Follows v rest) :
    parse (spaces ++ (text ++ rest)) = .ok (v, []) := by
  have unread : (Input.mk (spaces ++ (text ++ rest)) false 1).unread = spaces ++ (text ++ rest) := rfl
  have enough : 2 * text.length ≤ 2 * (spaces ++ (text ++ rest)).length + 2 := by
    simp only [List.length_append]
    omega
  obtain ⟨s, run, -⟩ := (covers _).value .null blank unread denotes follows enough
  unfold parse
  rw [show (parse_value _ .null).run _ = _ from run]
  rfl

theorem valueText_of_parse {message : Bytes} {v : Value} (read : parse message = .ok (v, [])) :
    ∃ spaces text rest, Spaces spaces ∧ message = spaces ++ (text ++ rest) ∧ ValueText text v ∧ Follows v rest := by
  unfold parse at read
  cases run : (parse_value (2 * message.length + 2) .null).run ⟨message, false, 1⟩ with
  | error e =>
    rw [run] at read
    cases read
  | ok result =>
    obtain ⟨⟨ok, found⟩, s⟩ := result
    rw [run] at read
    cases ok with
    | true =>
      cases read
      obtain ⟨text, ⟨spaces, blank, split⟩, denotes, follows⟩ := (accepts _).value run
      exact ⟨spaces, text, s.unread, blank, split, denotes, follows⟩
    | false =>
      have error := congrArg Prod.snd (Except.ok.inj read)
      simp [ascii] at error

/-- `parse` accepts a message exactly when it begins, after spaces, with the text of a value. It
looks behind the value only where that is a number. -/
theorem parse_accepts_iff (message : Bytes) (v : Value) :
    parse message = .ok (v, []) ↔ ∃ spaces text rest, Spaces spaces ∧ message = spaces ++ (text ++ rest) ∧
      ValueText text v ∧ Follows v rest := by
  constructor
  · exact valueText_of_parse
  · rintro ⟨spaces, text, rest, blank, rfl, denotes, follows⟩
    exact parse_of_valueText blank denotes follows

end Rosbridge.picojson
