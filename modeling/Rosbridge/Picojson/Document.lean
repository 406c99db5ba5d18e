import Rosbridge.Library.JsonText
import Rosbridge.Picojson.Intake

/-!
# Documents

`parse` reads every text in the standard grammar as what the text stands for, with its numbers rounded. It throws
where one of them is too large for a `double`, and at no other standard text.
-/

namespace Rosbridge.picojson

open JsonText

/-! ### What a tree is to picojson -/

def encode (s : List Char) : Bytes := s.flatMap String.utf8EncodeChar

mutual

/-- None where a number is too large for a `double`. -/
def ofTree : Tree → Option Value
  | .null => some .null
  | .boolean b => some (.ofBool b)
  | .number negative q => (nearest (negative, q)).map .ofDouble
  | .string s => some (.ofString (encode s))
  | .array items => (ofItems items).map .ofArray
  | .object fields => (ofFields fields .empty).map .ofObject

def ofItems : List Tree → Option (List Value)
  | [] => some []
  | item :: rest => do
    let v ← ofTree item
    let vs ← ofItems rest
    return v :: vs

/-- The last field of a key counts. -/
def ofFields : List (List Char × Tree) → Object → Option Object
  | [], o => some o
  | field :: rest, o => do
    let (key, v) ← ofField field
    ofFields rest (o.insert key v)

def ofField : List Char × Tree → Option (Bytes × Value)
  | (key, tree) => (ofTree tree).map fun v => (encode key, v)

end

/-! ### Numbers that are read -/

theorem isDigit_of_digit {b : UInt8} (digit : Digit b) : isDigit b = true := isDigit_iff.mpr digit

theorem natural_eq {digits : Bytes} (every : ∀ b ∈ digits, Digit b) : natural digits = fromDecimal digits := by
  have general : ∀ n : Nat, digits.foldl (fun n b => 10 * n + (b.toNat - 0x30)) n =
      digits.foldl (fun n digit => 10 * n + (digit - byte '0').toNat) n := by
    induction digits with
    | nil => exact fun _ => rfl
    | cons d rest ih =>
      intro n
      obtain ⟨low, high⟩ : 0x30 ≤ d.toNat ∧ d.toNat ≤ 0x39 := every d List.mem_cons_self
      have zero : (byte '0').toNat = 48 := by decide
      have value : (d - byte '0').toNat = d.toNat - 0x30 := by
        rw [UInt8.toNat_sub_of_le _ _ (by rw [UInt8.le_iff_toNat_le]; omega), zero]
      rw [List.foldl_cons, List.foldl_cons, value]
      exact ih (fun c member => every c (List.mem_cons_of_mem _ member)) _
  exact general 0

theorem digits_of_whole {whole : Bytes} (h : Whole whole) : (∀ b ∈ whole, Digit b) ∧ whole ≠ [] := by
  cases h with
  | zero => exact ⟨fun b member => by rw [List.mem_singleton.mp member]; exact ⟨by decide, by decide⟩, by decide⟩
  | digits first nonzero others => exact ⟨List.forall_mem_cons.mpr ⟨first, others⟩, List.cons_ne_nil _ _⟩

theorem point_of_fraction {text ds : Bytes} (h : Fraction text ds) : text = point ds ∧ ∀ b ∈ ds, Digit b := by
  cases h with
  | none => exact ⟨rfl, fun b member => absurd member List.not_mem_nil⟩
  | digits some_digit each =>
    cases ds with
    | nil => exact absurd rfl some_digit
    | cons d rest => exact ⟨rfl, each⟩

theorem sign_of_sign {mark ds : Bytes} {negative : Bool} (h : Sign mark negative) (each : ∀ b ∈ ds, Digit b)
    (some_digit : ds ≠ []) : sign (mark ++ ds) = (negative, ds) := by
  cases h with
  | none =>
    have read := @sign_digits ds [] (fun b member => isDigit_of_digit (each b member)) some_digit
    rwa [List.append_nil] at read
  | plus => rfl
  | minus => rfl

theorem exponent_of_exponent {text : Bytes} {power : ℤ} (h : Exponent text power) :
    exponent text = (power, []) ∧ (∀ ch ∈ text.head?, isDigit ch = false ∧ ch ≠ byte '.') ∧
      ∀ ch ∈ text, isNumeric ch = true := by
  cases h with
  | none => exact ⟨rfl, by simp, by simp⟩
  | @power mark sign' ds negative marked signed some_digit each =>
    have digits : ∀ ch ∈ ds, isDigit ch = true := fun ch member => isDigit_of_digit (each ch member)
    have marks : ∀ b ∈ word "eE", (b = byte 'e' ∨ b = byte 'E') ∧ isDigit b = false ∧ b ≠ byte '.' ∧
        isNumeric b = true := by decide +kernel
    obtain ⟨isMark, other, no_point, numeric⟩ := marks mark marked
    obtain ⟨taken, dropped⟩ := takeWhile_digits [] digits (by simp)
    rw [List.append_nil] at taken dropped
    refine ⟨?_, ?_, ?_⟩
    · rw [exponent, sign_of_sign signed each some_digit]
      simp [isMark, taken, dropped, some_digit, natural_eq each]
    · rintro ch ⟨⟩
      exact ⟨other, no_point⟩
    · refine List.forall_mem_cons.mpr ⟨numeric, List.forall_mem_append.mpr ⟨?_, ?_⟩⟩
      · cases signed <;> decide +kernel
      · exact fun ch member => by rw [isNumeric, digits ch member, Bool.true_or]

theorem number_is_read {text : Bytes} {negative : Bool} {q : ℚ} (h : Number text negative q) :
    strtod text = some (negative, q) ∧ ∃ ch rest, text = ch :: rest ∧ (isDigit ch || ch = byte '-') = true ∧
      ∀ c ∈ rest, isNumeric c = true := by
  obtain @⟨negative, whole, fraction, ds, exponent', power, integer, pointed, scaled⟩ := h
  obtain ⟨digits, some_digit⟩ := digits_of_whole integer
  obtain ⟨rfl, decimals⟩ := point_of_fraction pointed
  obtain ⟨read, head, numeric⟩ := exponent_of_exponent scaled
  have digits' : ∀ b ∈ whole, isDigit b = true := fun b member => isDigit_of_digit (digits b member)
  have decimals' : ∀ b ∈ ds, isDigit b = true := fun b member => isDigit_of_digit (decimals b member)
  have every : ∀ b ∈ whole ++ ds, Digit b := List.forall_mem_append.mpr ⟨digits, decimals⟩
  have text := strtod_text negative digits' some_digit decimals' read head
  rw [← natural_eq every] at text
  have plain {b : UInt8} (digit : isDigit b = true) : isNumeric b = true := by rw [isNumeric, digit, Bool.true_or]
  have pointNumeric : ∀ b ∈ point ds, isNumeric b = true := by
    cases ds with
    | nil => exact fun b member => absurd member List.not_mem_nil
    | cons d rest =>
      exact List.forall_mem_cons.mpr ⟨by decide, fun b member => plain (decimals' b member)⟩
  have behind : ∀ b ∈ point ds ++ exponent', isNumeric b = true := List.forall_mem_append.mpr ⟨pointNumeric, numeric⟩
  refine ⟨text, ?_⟩
  cases negative with
  | true =>
    refine ⟨byte '-', whole ++ (point ds ++ exponent'), rfl, by decide, ?_⟩
    exact List.forall_mem_append.mpr ⟨fun b member => plain (digits' b member), behind⟩
  | false =>
    cases whole with
    | nil => exact absurd rfl some_digit
    | cons d rest =>
      refine ⟨d, rest ++ (point ds ++ exponent'), rfl, by rw [digits' d List.mem_cons_self, Bool.true_or], ?_⟩
      exact List.forall_mem_append.mpr ⟨fun b member => plain (digits' b (List.mem_cons_of_mem _ member)), behind⟩

/-! ### Strings that are read -/

theorem hexadecimal_hexDigit : ∀ n < 256, hexadecimal (UInt8.ofNat n) = hexDigit (UInt8.ofNat n) := by decide +kernel

theorem hexadecimal_eq (b : UInt8) : hexadecimal b = hexDigit b := by
  have every := hexadecimal_hexDigit _ b.toNat_lt
  rwa [UInt8.ofNat_toNat] at every

theorem hexValue_of_quad {digits : Bytes} {n : Nat} (quad : Quad digits n) : hexValue digits 0 = some n := by
  have general : ∀ start : Nat,
      digits.foldlM (fun n b => (hexadecimal b).map (n * 16 + ·)) start = hexValue digits start := by
    clear quad
    induction digits with
    | nil => exact fun _ => rfl
    | cons b rest ih =>
      intro start
      rw [List.foldlM_cons, hexadecimal_eq, hexValue]
      cases hexDigit b with
      | none => rfl
      | some hex => exact ih _
  rw [← general]
  exact quad.2

theorem escaped_unescape : ∀ p ∈ escaped,
    unescape p.1.toUInt8 = some p.2.toUInt8 ∧ String.utf8EncodeChar p.2 = [p.2.toUInt8] := by
  decide +kernel

/-- Bytes that stand for themselves. -/
def Plain (b : UInt8) : Prop := ¬ b < byte ' ' ∧ b ≠ byte '"' ∧ b ≠ byte '\\'

theorem stringText_plain {bytes text s : Bytes} (plain : ∀ b ∈ bytes, Plain b) (rest : StringText text s) :
    StringText (bytes ++ text) (bytes ++ s) := by
  induction bytes with
  | nil => exact rest
  | cons b bytes ih =>
    obtain ⟨⟨printable, quote, backslash⟩, others⟩ := List.forall_mem_cons.mp plain
    exact .plain printable quote backslash (ih others)

theorem plain_of_large {b : UInt8} (large : 0x80 ≤ b.toNat) : Plain b := by
  refine ⟨fun less => ?_, ?_, ?_⟩
  · have small := UInt8.lt_iff_toNat_lt.mp less
    rw [show (byte ' ').toNat = 0x20 from rfl] at small
    omega
  · rintro rfl
    exact absurd large (by decide)
  · rintro rfl
    exact absurd large (by decide)

theorem plain_char {c : Char} (printable : 0x20 ≤ c.val.toNat) (quote : c ≠ '"') (backslash : c ≠ '\\') :
    ∀ b ∈ String.utf8EncodeChar c, Plain b := by
  have differs {d : Char} (other : c ≠ d) : c.val.toNat ≠ d.val.toNat :=
    fun same => other (Char.ext (UInt32.toNat_inj.mp same))
  rcases Utf8.encode_ascii c with ⟨ascii, encoded⟩ | ⟨-, large⟩
  · rw [encoded]
    refine List.forall_mem_singleton.mpr ⟨fun less => ?_, fun same => ?_, fun same => ?_⟩
    · have small := UInt8.lt_iff_toNat_lt.mp less
      rw [Utf8.toNat_byte (by omega), show (byte ' ').toNat = 0x20 from rfl] at small
      omega
    · have value := congrArg UInt8.toNat same
      rw [Utf8.toNat_byte (by omega)] at value
      exact differs quote value
    · have value := congrArg UInt8.toNat same
      rw [Utf8.toNat_byte (by omega)] at value
      exact differs backslash value
  · exact fun b member => plain_of_large (large b member)

theorem string_is_read {text : Bytes} {s : List Char} (h : JsonText.StringText text s) :
    StringText text (encode s) := by
  induction h with
  | close => exact .close
  | plain printable quote backslash rest ih => exact stringText_plain (plain_char printable quote backslash) ih
  | @escape letter c text s known rest ih =>
    obtain ⟨unescapes, encoded⟩ := escaped_unescape _ known
    have denotes := StringText.escape unescapes ih
    rw [encode, List.flatMap_cons, encoded]
    exact denotes
  | @single digits text c s quad rest ih =>
    have scalar := Utf8.scalar c
    have denotes := CodepointText.single quad.1 (hexValue_of_quad quad) (by omega)
    rw [utf8_char] at denotes
    have whole := StringText.codepoint denotes ih
    exact whole
  | @pair high low text first second c s quad quad' leads trails number rest ih =>
    have denotes := CodepointText.pair quad.1 quad'.1 (hexValue_of_quad quad) (hexValue_of_quad quad') leads trails
    rw [← number, utf8_char] at denotes
    have whole := StringText.codepoint denotes ih
    rw [List.append_assoc] at whole
    exact whole

/-! ### Values that are read -/

theorem spaces_of_blank {spaces : Bytes} (blank : Blank spaces) : Spaces spaces := by
  have every : ∀ b ∈ word " \t\n\r", isSpace b = true := by decide +kernel
  exact fun b member => every b (blank b member)

mutual

theorem value_is_read : ∀ (tree : Tree) {text : Bytes} {v : Value}, JsonText.ValueText text tree →
    ofTree tree = some v → ValueText text v
  | .null, text, v, denotes, made => by
    cases denotes
    cases made
    exact .null
  | .boolean b, text, v, denotes, made => by
    cases denotes
    cases made
    cases b with
    | true => exact .boolean true
    | false => exact .boolean false
  | .number negative q, text, v, denotes, made => by
    cases denotes with
    | number digits =>
      obtain ⟨n, rounded, rfl⟩ := Option.map_eq_some_iff.mp made
      obtain ⟨read, ch, rest, rfl, start, numeric⟩ := number_is_read digits
      exact .number start numeric (by rw [read]; exact rounded)
  | .string s, text, v, denotes, made => by
    cases denotes with
    | string inside =>
      cases made
      exact .string (string_is_read inside)
  | .array items, text, v, denotes, made => by
    obtain ⟨vs, each, rfl⟩ := Option.map_eq_some_iff.mp made
    cases denotes with
    | emptyArray blank =>
      cases each
      exact .emptyArray (spaces_of_blank blank)
    | array blank inside =>
      have whole := ValueText.array (spaces_of_blank blank) (items_are_read items inside each)
      exact whole
  | .object fields, text, v, denotes, made => by
    obtain ⟨o, each, rfl⟩ := Option.map_eq_some_iff.mp made
    cases denotes with
    | emptyObject blank =>
      cases each
      exact .emptyObject (spaces_of_blank blank)
    | object blank inside =>
      have whole := ValueText.object (spaces_of_blank blank) (fields_are_read fields inside each)
      exact whole
termination_by structural tree => tree

theorem items_are_read : ∀ (items : List Tree) {text : Bytes} {vs : List Value}, JsonText.ItemsText text items →
    ofItems items = some vs → ItemsText text vs
  | [], text, vs, denotes, made => by cases denotes
  | item :: rest, text, vs, denotes, made => by
    obtain ⟨v, here, made⟩ := Option.bind_eq_some_iff.mp made
    obtain ⟨vs', behind, made⟩ := Option.bind_eq_some_iff.mp made
    cases made
    cases denotes with
    | last value blank =>
      cases behind
      exact .last (value_is_read item value here) (spaces_of_blank blank)
    | more value blank blank' others =>
      have whole := ItemsText.more (value_is_read item value here) (spaces_of_blank blank) (spaces_of_blank blank')
        (items_are_read rest others behind)
      exact whole
termination_by structural items => items

theorem fields_are_read : ∀ (fields : List (List Char × Tree)) {text : Bytes} {o o' : Object},
    JsonText.FieldsText text fields → ofFields fields o = some o' → FieldsText o text o'
  | [], text, o, o', denotes, made => by cases denotes
  | field :: rest, text, o, o', denotes, made => by
    obtain ⟨⟨key, v⟩, here, behind⟩ := Option.bind_eq_some_iff.mp made
    cases denotes with
    | last value blank =>
      cases behind
      exact .last (field_is_read field value here) (spaces_of_blank blank)
    | more value blank blank' others =>
      have whole := FieldsText.more (field_is_read field value here) (spaces_of_blank blank)
        (spaces_of_blank blank') (fields_are_read rest others behind)
      exact whole
termination_by structural fields => fields

theorem field_is_read : ∀ (field : List Char × Tree) {text key : Bytes} {v : Value}, JsonText.FieldText text field →
    ofField field = some (key, v) → FieldText text key v
  | (name, tree), text, key, v, denotes, made => by
    obtain ⟨v', here, same⟩ := Option.map_eq_some_iff.mp made
    cases same
    cases denotes with
    | mk named blank blank' value =>
      have whole := FieldText.mk (string_is_read named) (spaces_of_blank blank) (spaces_of_blank blank')
        (value_is_read tree value here)
      exact whole
termination_by structural field => field

end

/-! ### Numbers that are too large -/

theorem bind_run_error {α β : Type} {f : Reader α} {g : α → Reader β} {s : Input} {e : Exn}
    (stops : f s = .error e) : (f >>= g) s = .error e := by
  show (f s >>= fun (p : α × Input) => g p.1 p.2) = .error e
  rw [stops]
  rfl

theorem value_head {text : Bytes} {tree : Tree} (denotes : JsonText.ValueText text tree) :
    ∃ ch rest, text = ch :: rest ∧ isSpace ch = false ∧ ch ≠ byte ']' := by
  cases denotes with
  | null => exact ⟨_, _, rfl, by decide⟩
  | boolean b => cases b <;> exact ⟨_, _, rfl, by decide⟩
  | number digits =>
    obtain ⟨-, ch, rest, rfl, start, -⟩ := number_is_read digits
    exact ⟨ch, rest, rfl, (number_start start).2⟩
  | _ => exact ⟨_, _, rfl, by decide⟩

theorem items_head {text : Bytes} {items : List Tree} (denotes : JsonText.ItemsText text items) :
    ∃ ch rest, text = ch :: rest ∧ isSpace ch = false ∧ ch ≠ byte ']' := by
  cases denotes with
  | last here | more here =>
    obtain ⟨ch, rest, rfl, visible, other⟩ := value_head here
    exact ⟨ch, _, rfl, visible, other⟩

theorem fields_head {text : Bytes} {fields : List (List Char × Tree)} (denotes : JsonText.FieldsText text fields) :
    ∃ rest, text = byte '"' :: rest := by
  cases denotes with
  | last here | more here =>
    cases here with
    | mk => exact ⟨_, rfl⟩

theorem set_number_throws (out : Value) {num_str : Bytes} {q : Bool × ℚ} (s : Input)
    (value : strtod num_str = some q) (large : nearest q = none) : set_number out num_str s = .error (.overflow_error "") := by
  unfold set_number
  rw [value]
  dsimp only
  rw [large]
  rfl

/-- A reader with that much fuel throws at every text of up to half that size with too large a number in it. -/
structure Throws (fuel : Nat) : Prop where
  value (out : Value) {tree : Tree} {s : Input} {spaces text rest : Bytes} (blank : Spaces spaces)
    (left : s.unread = spaces ++ (text ++ rest)) (denotes : JsonText.ValueText text tree) (large : ofTree tree = none)
    (ends : ∀ ch ∈ rest.head?, isNumeric ch = false) (enough : 2 * text.length ≤ fuel) :
    parse_value fuel out s = .error (.overflow_error "")
  items (found : List Value) {items : List Tree} {s : Input} {spaces text rest : Bytes} (blank : Spaces spaces)
    (left : s.unread = spaces ++ (text ++ rest)) (denotes : JsonText.ItemsText text items)
    (large : ofItems items = none) (enough : 2 * text.length ≤ fuel + 1) :
    parse_items fuel found s = .error (.overflow_error "")
  fields (found : Object) {fields : List (List Char × Tree)} {s : Input} {spaces text rest : Bytes}
    (blank : Spaces spaces) (left : s.unread = spaces ++ (text ++ rest)) (denotes : JsonText.FieldsText text fields)
    (large : ofFields fields found = none) (enough : 2 * text.length ≤ fuel + 1) :
    parse_fields fuel found s = .error (.overflow_error "")

theorem parse_value_from_throws {fuel : Nat} (ih : Throws fuel) (out : Value) {tree : Tree} {ch : UInt8}
    {text rest : Bytes} (line : Nat) (denotes : JsonText.ValueText (ch :: text) tree) (large : ofTree tree = none)
    (ends : ∀ ch ∈ rest.head?, isNumeric ch = false) (enough : 2 * text.length ≤ fuel) :
    parse_value_from fuel out ch ⟨ch :: (text ++ rest), true, line⟩ = .error (.overflow_error "") := by
  generalize whole : ch :: text = start at denotes
  cases denotes with
  | null | boolean b | string inside => cases large
  | emptyArray blank | emptyObject blank => cases large
  | number digits =>
    obtain ⟨read, c, tail, rfl, start, numeric⟩ := number_is_read digits
    obtain ⟨rfl, rfl⟩ := List.cons.inj whole
    obtain ⟨s', run, -⟩ := parse_number_covered line start numeric ends
    rw [parse_value_from_number fuel out start, bind_run_ok (ungetc_run _)]
    exact (bind_run_ok run).trans (set_number_throws out s' read (Option.map_eq_none_iff.mp large))
  | @array spaces behind items blank inside =>
    obtain ⟨c, tail, rfl, visible, other⟩ := items_head inside
    obtain ⟨rfl, rfl⟩ : ch = byte '[' ∧ text = spaces ++ c :: tail := List.cons.inj whole
    have behind : spaces ++ c :: tail ++ rest = spaces ++ c :: (tail ++ rest) := by simp
    obtain ⟨s₁, run, left⟩ :=
      expect_leaves ']' (s := ⟨byte '[' :: (spaces ++ c :: tail ++ rest), true, line⟩) (spaces_of_blank blank)
        visible other behind
    have less : 2 * (c :: tail).length ≤ fuel + 1 := by
      rw [List.length_append] at enough
      omega
    unfold parse_value_from
    rw [if_neg (by decide), if_neg (by decide), if_neg (by decide), if_neg (by decide), if_pos rfl, bind_run_ok run]
    exact ih.items [] no_spaces left inside (Option.map_eq_none_iff.mp large) less
  | @object spaces behind fields blank inside =>
    obtain ⟨tail, rfl⟩ := fields_head inside
    obtain ⟨rfl, rfl⟩ : ch = byte '\x7b' ∧ text = spaces ++ byte '"' :: tail := List.cons.inj whole
    have behind : spaces ++ byte '"' :: tail ++ rest = spaces ++ byte '"' :: (tail ++ rest) := by simp
    obtain ⟨s₁, run, left⟩ :=
      expect_leaves '\x7d' (s := ⟨byte '\x7b' :: (spaces ++ byte '"' :: tail ++ rest), true, line⟩)
        (spaces_of_blank blank) (by decide) (by decide) behind
    have less : 2 * (byte '"' :: tail).length ≤ fuel + 1 := by
      rw [List.length_append] at enough
      omega
    unfold parse_value_from
    rw [if_neg (by decide), if_neg (by decide), if_neg (by decide), if_neg (by decide), if_neg (by decide),
      if_pos rfl, bind_run_ok run]
    exact ih.fields .empty no_spaces left inside (Option.map_eq_none_iff.mp large) less

theorem more_append (text after before behind rest : Bytes) :
    text ++ (after ++ (word "," ++ (before ++ behind))) ++ rest =
      text ++ (after ++ byte ',' :: (before ++ (behind ++ rest))) := by
  simp only [List.append_assoc]
  rfl

theorem more_length (text after before behind : Bytes) :
    text.length + behind.length + 1 ≤ (text ++ (after ++ (word "," ++ (before ++ behind)))).length := by
  rw [List.length_append, List.length_append, List.length_append, List.length_append,
    show (word ",").length = 1 from rfl]
  omega

theorem parse_items_throws {fuel : Nat} (ih : Throws fuel) (found : List Value) {items : List Tree} {s : Input}
    {spaces text rest : Bytes} (blank : Spaces spaces) (left : s.unread = spaces ++ (text ++ rest))
    (denotes : JsonText.ItemsText text items) (large : ofItems items = none) (enough : 2 * text.length ≤ fuel + 2) :
    parse_items (fuel + 1) found s = .error (.overflow_error "") := by
  unfold parse_items
  cases denotes with
  | @last text after item here blank₁ =>
    rw [List.append_assoc, List.append_assoc] at left
    rw [List.length_append, List.length_append, show (word "]").length = 1 from rfl] at enough
    have ends := ends_spaces (byte ']') (spaces_of_blank blank₁) (by decide) rest
    have large' : ofTree item = none := by
      cases made : ofTree item with
      | none => rfl
      | some v =>
        rw [ofItems, made] at large
        cases large
    exact bind_run_error (ih.value .null blank left here large' ends (by omega))
  | @more text after before behind item items here blank₁ blank₂ inside =>
    rw [more_append] at left
    have lengths := more_length text after before behind
    have some_char : 0 < text.length := by
      obtain ⟨ch, tail, rfl, -⟩ := value_head here
      exact Nat.succ_pos _
    have ends := ends_spaces (byte ',') (spaces_of_blank blank₁) (by decide) (before ++ (behind ++ rest))
    cases made : ofTree item with
    | none => exact bind_run_error (ih.value .null blank left here made ends (by omega))
    | some v =>
      have large' : ofItems items = none := by
        cases others : ofItems items with
        | none => rfl
        | some vs =>
          rw [ofItems, made, others] at large
          cases large
      obtain ⟨s₁, first, left₁⟩ := (covers fuel).value .null blank left (value_is_read item here made)
        (follows_of_ends v ends) (by omega)
      obtain ⟨s₂, second, left₂⟩ := expect_takes (spaces_of_blank blank₁) (by decide) left₁
      rw [bind_run_ok first]
      refine (bind_run_ok second).trans ?_
      exact ih.items (found ++ [v]) (spaces_of_blank blank₂) left₂ inside large' (by omega)

theorem field_throws {fuel : Nat} (ih : Throws fuel) (found : Object) {field : List Char × Tree} {s : Input}
    {spaces text rest : Bytes} (blank : Spaces spaces) (left : s.unread = spaces ++ (text ++ rest))
    (denotes : JsonText.FieldText text field) (large : ofField field = none)
    (ends : ∀ ch ∈ rest.head?, isNumeric ch = false) (enough : 2 * text.length ≤ fuel + 2) :
    parse_fields (fuel + 1) found s = .error (.overflow_error "") := by
  unfold parse_fields
  cases denotes with
  | @mk name before around text key value named blank₁ blank₂ here =>
    have left' : s.unread = spaces ++ byte '"' :: (name ++ (before ++ byte ':' :: (around ++ (text ++ rest)))) := by
      rw [left]
      simp only [List.append_assoc]
      rfl
    have lengths : text.length + 1 ≤ (word "\"" ++ (name ++ (before ++ (word ":" ++ (around ++ text))))).length := by
      rw [List.length_append, List.length_append, List.length_append, List.length_append, List.length_append,
        show (word "\"").length = 1 from rfl]
      omega
    obtain ⟨s₁, first, left₁⟩ := expect_takes blank (by decide) left'
    obtain ⟨ok, str, s₂, second, read⟩ := parse_string_run s₁
    obtain ⟨rfl, rfl, left₂⟩ := (read (encode key) _).mpr ⟨name, left₁, string_is_read named⟩
    obtain ⟨s₃, third, left₃⟩ := expect_takes (spaces_of_blank blank₁) (by decide) left₂
    rw [bind_run_ok first]
    refine (bind_run_ok second).trans ?_
    refine (bind_run_ok third).trans ?_
    rw [if_neg (by decide)]
    exact bind_run_error (ih.value (found.read (encode key)) (spaces_of_blank blank₂) left₃ here
      (Option.map_eq_none_iff.mp large) ends (by omega))

theorem parse_fields_throws {fuel : Nat} (ih : Throws fuel) (found : Object) {fields : List (List Char × Tree)}
    {s : Input} {spaces text rest : Bytes} (blank : Spaces spaces) (left : s.unread = spaces ++ (text ++ rest))
    (denotes : JsonText.FieldsText text fields) (large : ofFields fields found = none)
    (enough : 2 * text.length ≤ fuel + 2) : parse_fields (fuel + 1) found s = .error (.overflow_error "") := by
  cases denotes with
  | @last text after field here blank₁ =>
    rw [List.append_assoc, List.append_assoc] at left
    rw [List.length_append] at enough
    have ends := ends_spaces (byte '\x7d') (spaces_of_blank blank₁) (by decide) rest
    have large' : ofField field = none := by
      cases made : ofField field with
      | none => rfl
      | some found =>
        rw [ofFields, made] at large
        cases large
    exact field_throws ih found blank left here large' ends (by omega)
  | @more text after before behind field fields here blank₁ blank₂ inside =>
    rw [more_append] at left
    have lengths := more_length text after before behind
    have ends := ends_spaces (byte ',') (spaces_of_blank blank₁) (by decide) (before ++ (behind ++ rest))
    cases made : ofField field with
    | none => exact field_throws ih found blank left here made ends (by omega)
    | some read =>
      obtain ⟨key, v⟩ := read
      have large' : ofFields fields (found.insert key v) = none := by
        rw [ofFields, made] at large
        exact large
      obtain ⟨s₁, left₁, first⟩ := field_covered (covers fuel) found blank left (field_is_read field here made)
        (follows_of_ends v ends) (by omega)
      obtain ⟨s₂, second, left₂⟩ := expect_takes (spaces_of_blank blank₁) (by decide) left₁
      rw [first]
      refine (bind_run_ok second).trans ?_
      exact ih.fields (found.insert key v) (spaces_of_blank blank₂) left₂ inside large' (by omega)

theorem throws (fuel : Nat) : Throws fuel := by
  induction fuel with
  | zero =>
    refine ⟨?_, ?_, ?_⟩
    · intro out tree s spaces text rest _ _ denotes _ _ enough
      obtain ⟨ch, tail, rfl, -⟩ := value_head denotes
      rw [List.length_cons] at enough
      omega
    · intro found items s spaces text rest _ _ denotes _ enough
      obtain ⟨ch, tail, rfl, -⟩ := items_head denotes
      rw [List.length_cons] at enough
      omega
    · intro found fields s spaces text rest _ _ denotes _ enough
      obtain ⟨tail, rfl⟩ := fields_head denotes
      rw [List.length_cons] at enough
      omega
  | succ fuel ih =>
    refine ⟨?_, parse_items_throws ih, parse_fields_throws ih⟩
    intro out tree s spaces text rest blank left denotes large ends enough
    obtain ⟨ch, tail, rfl, visible, -⟩ := value_head denotes
    have next : s.unread.dropWhile isSpace = ch :: (tail ++ rest) := by
      rw [left]
      exact spaces_dropWhile blank (by simpa using visible)
    obtain ⟨line, run⟩ := parse_value_cons fuel out next
    rw [run]
    rw [List.length_cons] at enough
    exact parse_value_from_throws ih out line denotes large ends (by omega)

/-! ### `parse` -/

theorem ends_blank {after : Bytes} (blank : Blank after) : ∀ ch ∈ after.head?, isNumeric ch = false := by
  have blanks : ∀ b ∈ word " \t\n\r", isNumeric b = false := by decide +kernel
  exact fun ch next => blanks ch (blank ch (List.mem_of_head? next))

theorem document_is_read {message : Bytes} {tree : Tree} {v : Value} (h : Document message tree)
    (made : ofTree tree = some v) : parse message = .ok (v, []) := by
  cases h with
  | @mk before text after tree blank value blank' =>
    exact parse_of_valueText (spaces_of_blank blank) (value_is_read tree value made)
      (follows_of_ends v (ends_blank blank'))

theorem document_throws {message : Bytes} {tree : Tree} (h : Document message tree) (large : ofTree tree = none) :
    parse message = .error (.overflow_error "") := by
  cases h with
  | @mk before text after tree blank value blank' =>
    have unread : (Input.mk (before ++ (text ++ after)) false 1).unread = before ++ (text ++ after) := rfl
    have enough : 2 * text.length ≤ 2 * (before ++ (text ++ after)).length + 2 := by
      simp only [List.length_append]
      omega
    have stops := (throws _).value .null (spaces_of_blank blank) unread value large (ends_blank blank') enough
    unfold parse
    rw [show (parse_value _ .null).run _ = _ from stops]
    rfl

end Rosbridge.picojson
