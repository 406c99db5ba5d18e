import Rosbridge.Picojson.Grammar
import Rosbridge.Picojson.NumberText
import Rosbridge.Picojson.Serialize

/-!
# `parse` undoes `serialize`

What `serialize` prints is in the grammar: a string with its escapes, a number with the digits that
tell it from every other, the fields of an object by increasing key, so that each goes behind the
ones before.
-/

namespace Rosbridge.picojson

theorem hexValue_hexDigits : ∀ n < 256, hexValue (byte '0' :: byte '0' :: hexDigits n.toUInt8) 0 = some n := by
  decide +kernel

theorem codepointText_control {c : UInt8} (control : c < 0x20 ∨ c = 0x7f) :
    CodepointText (byte '0' :: byte '0' :: hexDigits c) [c] := by
  have small : c.toNat < 0x80 := by
    rcases control with less | rfl
    · have : c.toNat < 0x20 := UInt8.lt_iff_toNat_lt.mp less
      omega
    · decide
  have value := hexValue_hexDigits c.toNat (by omega)
  rw [show c.toNat.toUInt8 = c from UInt8.ofNat_toNat] at value
  have denotes := CodepointText.single rfl value (by omega)
  rw [utf8, if_pos small, show c.toNat.toUInt8 = c from UInt8.ofNat_toNat] at denotes
  exact denotes

theorem stringText_char (c : UInt8) {text s : Bytes} (rest : StringText text s) :
    StringText (serialize_str_char c ++ text) (c :: s) := by
  unfold serialize_str_char
  by_cases itself : c = byte '"' ∨ c = byte '\\' ∨ c = byte '/'
  · rw [if_pos itself]
    exact .escape (if_pos itself) rest
  rw [if_neg itself]
  by_cases b : c = 8
  · rw [if_pos b, b]
    exact .escape (show unescape (byte 'b') = some 8 by decide) rest
  rw [if_neg b]
  by_cases f : c = 12
  · rw [if_pos f, f]
    exact .escape (show unescape (byte 'f') = some 12 by decide) rest
  rw [if_neg f]
  by_cases n : c = 10
  · rw [if_pos n, n]
    exact .escape (show unescape (byte 'n') = some 10 by decide) rest
  rw [if_neg n]
  by_cases r : c = 13
  · rw [if_pos r, r]
    exact .escape (show unescape (byte 'r') = some 13 by decide) rest
  rw [if_neg r]
  by_cases t : c = 9
  · rw [if_pos t, t]
    exact .escape (show unescape (byte 't') = some 9 by decide) rest
  rw [if_neg t]
  by_cases control : c < 0x20 ∨ c = 0x7f
  · rw [if_pos control]
    exact .codepoint (codepointText_control control) rest
  · rw [if_neg control]
    obtain ⟨printable, -⟩ := not_or.mp control
    obtain ⟨quote, other⟩ := not_or.mp itself
    exact .plain printable quote (not_or.mp other).1 rest

theorem stringText_serialize (s : Bytes) : StringText (s.flatMap serialize_str_char ++ [byte '"']) s := by
  induction s with
  | nil => exact .close
  | cons c s ih =>
    rw [List.flatMap_cons, List.append_assoc]
    exact stringText_char c ih

theorem numeric_spells {text whole fraction tail : Bytes} {magnitude : ℚ} {power : ℤ}
    (spells : Spells text magnitude whole fraction tail power) : ∀ ch ∈ text, isNumeric ch = true := by
  have digits {ch : UInt8} (digit : isDigit ch = true) : isNumeric ch = true := by
    rw [isNumeric, digit, Bool.true_or]
  rw [spells.text]
  intro ch member
  rcases List.mem_append.mp member with inWhole | member
  · exact digits (spells.digits ch inWhole)
  rcases List.mem_append.mp member with inFraction | inTail
  · cases fraction with
    | nil => exact absurd inFraction List.not_mem_nil
    | cons d rest =>
      rcases List.mem_cons.mp inFraction with rfl | member
      · decide
      · exact digits (spells.decimals ch member)
  · have tail := spells.tail
    cases tail with
    | none => exact absurd inTail List.not_mem_nil
    | power negative exponent every =>
      have marks : ∀ c ∈ [byte 'e', if negative then byte '-' else byte '+'], isNumeric c = true := by
        cases negative <;> decide +kernel
      rcases List.mem_append.mp inTail with mark | member
      · exact marks ch mark
      · exact digits (every ch member)

theorem valueText_number (n : Double) : ValueText (printNumber n) (.ofDouble n) := by
  have value := nearest_strtod_printNumber n
  obtain ⟨text, magnitude, whole, fraction, tail, power, printed, spells, -⟩ := printNumber_spells n
  have numeric := numeric_spells spells
  rw [printed] at value ⊢
  by_cases negative : n.negative = true
  · rw [if_pos negative] at value ⊢
    exact .number (by decide) numeric value
  · rw [if_neg negative] at value ⊢
    cases first : whole with
    | nil => exact absurd first spells.some_digit
    | cons ch rest =>
      obtain rfl : text = ch :: (rest ++ (point fraction ++ tail)) := by rw [spells.text, first, List.cons_append]
      have digit := spells.digits ch (by rw [first]; exact List.mem_cons_self)
      exact .number (by rw [digit, Bool.true_or]) (List.forall_mem_cons.mp numeric).2 value

/-! ### Containers -/

theorem serialize_items_cons (item next : Raw) (rest : List Raw) (close : Bytes) :
    serialize_items (item :: next :: rest) ++ close =
      serialize_raw item ++ ([] ++ byte ',' :: ([] ++ (serialize_items (next :: rest) ++ close))) := by
  simp [serialize_items]

theorem serialize_fields_cons (field next : Bytes × Raw) (rest : List (Bytes × Raw)) (close : Bytes) :
    serialize_fields (field :: next :: rest) ++ close =
      serialize_field field ++ ([] ++ byte ',' :: ([] ++ (serialize_fields (next :: rest) ++ close))) := by
  simp [serialize_fields]

theorem serialize_items_last (item : Raw) (close : Bytes) :
    serialize_items [item] ++ close = serialize_raw item ++ ([] ++ close) := by
  simp [serialize_items]

theorem serialize_fields_last (field : Bytes × Raw) (close : Bytes) :
    serialize_fields [field] ++ close = serialize_field field ++ ([] ++ close) := by
  simp [serialize_fields]

theorem serialize_field_eq (key : Bytes) (value : Raw) :
    serialize_field (key, value) = byte '"' ::
      (key.flatMap serialize_str_char ++ [byte '"'] ++ ([] ++ byte ':' :: ([] ++ serialize_raw value))) := by
  simp [serialize_field, serialize_str]

section

variable {before : Object} {field : Bytes × Raw} {rest : List (Bytes × Raw)}

theorem fields_insert_last (ordered : field.2.Ordered)
    (above : ∀ old ∈ before.fields, ∀ x ∈ field :: rest, old.1 < x.1) :
    (before.insert field.1 ⟨field.2, ordered⟩).fields = before.fields ++ [field] :=
  SortedAssoc.insert_last field.2 fun old member => above old member field List.mem_cons_self

theorem fields_above_last (ordered : field.2.Ordered) (first : ∀ x ∈ rest, field.1 < x.1)
    (above : ∀ old ∈ before.fields, ∀ x ∈ field :: rest, old.1 < x.1) :
    ∀ old ∈ (before.insert field.1 ⟨field.2, ordered⟩).fields, ∀ x ∈ rest, old.1 < x.1 := by
  rw [fields_insert_last ordered above]
  intro old member x inRest
  rcases List.mem_append.mp member with older | new
  · exact above old older x (List.mem_cons_of_mem _ inRest)
  · obtain rfl := List.mem_singleton.mp new
    exact first x inRest

end

mutual

theorem valueText_raw : ∀ (x : Raw) (ordered : x.Ordered), ValueText (serialize_raw x) ⟨x, ordered⟩
  | .null, _ => .null
  | .boolean b, _ => by
    cases b with
    | true => exact .boolean true
    | false => exact .boolean false
  | .number n, _ => valueText_number n
  | .string s, _ => .string (stringText_serialize s)
  | .array xs, ordered => by
    cases ordered with
    | array each =>
      by_cases none : xs = []
      · subst none
        exact .emptyArray no_spaces
      · obtain ⟨items, rfl, inside⟩ := itemsText_raw xs none each
        have denotes := ValueText.array no_spaces inside
        exact denotes
  | .object fs, ordered => by
    cases ordered with
    | object sorted each =>
      by_cases none : fs = []
      · subst none
        exact .emptyObject no_spaces
      · obtain ⟨fields, same, inside⟩ :=
          fieldsText_raw fs none sorted each .empty fun _ member => absurd member List.not_mem_nil
        obtain rfl : fields.fields = fs := same
        have denotes := ValueText.object no_spaces inside
        exact denotes
termination_by structural x => x

theorem itemsText_raw : ∀ xs : List Raw, xs ≠ [] → (∀ x ∈ xs, x.Ordered) →
    ∃ items : List Value, items.map Value.raw = xs ∧ ItemsText (serialize_items xs ++ [byte ']']) items
  | [], some_item, _ => absurd rfl some_item
  | item :: rest, _, each => by
    have here := valueText_raw item (each item List.mem_cons_self)
    cases rest with
    | nil =>
      rw [serialize_items_last]
      exact ⟨[_], rfl, .last here no_spaces⟩
    | cons next rest =>
      obtain ⟨items, same, inside⟩ :=
        itemsText_raw (next :: rest) (List.cons_ne_nil _ _) (List.forall_mem_cons.mp each).2
      rw [serialize_items_cons]
      exact ⟨⟨item, _⟩ :: items, congrArg (item :: ·) same, .more here no_spaces no_spaces inside⟩
termination_by structural xs => xs

theorem fieldsText_raw : ∀ fs : List (Bytes × Raw), fs ≠ [] → SortedAssoc.Sorted fs → (∀ x ∈ fs, x.2.Ordered) →
    ∀ before : Object, (∀ old ∈ before.fields, ∀ x ∈ fs, old.1 < x.1) →
    ∃ fields : Object, fields.fields = before.fields ++ fs ∧
      FieldsText before (serialize_fields fs ++ [byte '\x7d']) fields
  | [], some_field, _, _, _, _ => absurd rfl some_field
  | field :: rest, _, sorted, each, before, above => by
    have here := fieldText_raw field (each field List.mem_cons_self)
    have added := fields_insert_last (each field List.mem_cons_self) above
    cases rest with
    | nil =>
      rw [serialize_fields_last]
      exact ⟨_, added, .last here no_spaces⟩
    | cons next rest =>
      obtain ⟨first, sorted'⟩ := List.pairwise_cons.mp sorted
      obtain ⟨fields, same, inside⟩ :=
        fieldsText_raw (next :: rest) (List.cons_ne_nil _ _) sorted' (List.forall_mem_cons.mp each).2 _
          (fields_above_last (each field List.mem_cons_self) first above)
      rw [serialize_fields_cons]
      exact ⟨fields, by rw [same, added, List.append_assoc]; rfl, .more here no_spaces no_spaces inside⟩
termination_by structural fs => fs

theorem fieldText_raw : ∀ (field : Bytes × Raw) (ordered : field.2.Ordered),
    FieldText (serialize_field field) field.1 ⟨field.2, ordered⟩
  | (key, x), ordered => by
    have denotes := FieldText.mk (stringText_serialize key) no_spaces no_spaces (valueText_raw x ordered)
    rw [serialize_field_eq]
    exact denotes
termination_by structural field => field

end

/-! ### There and back -/

theorem follows_nil (v : Value) : Follows v [] := follows_of_ends v fun ch next => absurd next (by simp)

theorem parse_serialize (v : Value) : parse (serialize v) = .ok (v, []) := by
  have read := parse_of_valueText no_spaces (valueText_raw v.raw v.ordered) (follows_nil v)
  rwa [List.nil_append, List.append_nil] at read

/-- Every value is read as it was printed, and no two values are printed alike. -/
theorem values_are_read_back (v w : Value) :
    parse (serialize v) = .ok (v, []) ∧ (serialize v = serialize w ↔ v = w) := by
  refine ⟨parse_serialize v, fun same => ?_, congrArg serialize⟩
  have read := parse_serialize v
  rw [same, parse_serialize w] at read
  exact (Prod.mk.inj (Except.ok.inj read)).1.symm

end Rosbridge.picojson
