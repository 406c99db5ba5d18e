import Rosbridge.Picojson.ReadBack
import Rosbridge.Websocketpp.Utf8Validator

/-!
# UTF-8 in JSON texts

picojson takes strings for bytes. The text of a value is UTF-8 where all its strings are, and the strings of
a text that is UTF-8 are, whatever is escaped in it.
-/

namespace Rosbridge

namespace Raw

mutual

def strings : Raw → List Bytes
  | .string s => [s]
  | .array items => stringsOfItems items
  | .object fields => stringsOfFields fields
  | _ => []

def stringsOfItems : List Raw → List Bytes
  | [] => []
  | item :: rest => strings item ++ stringsOfItems rest

def stringsOfFields : List (Bytes × Raw) → List Bytes
  | [] => []
  | field :: rest => stringsOfField field ++ stringsOfFields rest

def stringsOfField : Bytes × Raw → List Bytes
  | (key, value) => key :: strings value

end

/-- All of its strings are UTF-8. -/
def Unicode (x : Raw) : Prop := ∀ s ∈ x.strings, Utf8.Valid s

instance (x : Raw) : Decidable x.Unicode := by unfold Unicode; infer_instance

theorem mem_stringsOfItems {s : Bytes} {items : List Raw} :
    s ∈ stringsOfItems items ↔ ∃ item ∈ items, s ∈ item.strings := by
  induction items with
  | nil => simp [stringsOfItems]
  | cons item rest ih => simp [stringsOfItems, ih]

theorem mem_stringsOfFields {s : Bytes} {fields : List (Bytes × Raw)} :
    s ∈ stringsOfFields fields ↔ ∃ field ∈ fields, s = field.1 ∨ s ∈ field.2.strings := by
  induction fields with
  | nil => simp [stringsOfFields]
  | cons field rest ih =>
    obtain ⟨key, value⟩ := field
    simp [stringsOfFields, stringsOfField, ih, or_assoc]

theorem unicode_array {items : List Raw} : (Raw.array items).Unicode ↔ ∀ item ∈ items, item.Unicode := by
  simp only [Unicode, strings, mem_stringsOfItems]
  exact ⟨fun all item member s inside => all s ⟨item, member, inside⟩,
    fun all s ⟨item, member, inside⟩ => all item member s inside⟩

theorem unicode_object {fields : List (Bytes × Raw)} :
    (Raw.object fields).Unicode ↔ ∀ field ∈ fields, Utf8.Valid field.1 ∧ field.2.Unicode := by
  simp only [Unicode, strings, mem_stringsOfFields]
  constructor
  · intro all field member
    exact ⟨all _ ⟨field, member, .inl rfl⟩, fun s inside => all s ⟨field, member, .inr inside⟩⟩
  · rintro all s ⟨field, member, rfl | inside⟩
    · exact (all field member).1
    · exact (all field member).2 s inside

end Raw

namespace Object

def Unicode (o : Object) : Prop := (Raw.object o.fields).Unicode

theorem unicode_empty : Unicode .empty := fun _ member => absurd member List.not_mem_nil

theorem Unicode.insert {o : Object} (h : o.Unicode) {key : Bytes} {value : Value} (named : Utf8.Valid key)
    (valued : value.raw.Unicode) : (o.insert key value).Unicode := by
  refine Raw.unicode_object.mpr fun field member => ?_
  rcases SortedAssoc.mem_insert member with rfl | old
  · exact ⟨named, valued⟩
  · exact Raw.unicode_object.mp h field old

theorem Unicode.touch {o : Object} (h : o.Unicode) {key : Bytes} (named : Utf8.Valid key) :
    (o.touch key).Unicode := by
  unfold Object.touch
  split
  · exact h
  · exact h.insert named fun _ member => absurd member List.not_mem_nil

theorem Unicode.read {o : Object} (h : o.Unicode) (key : Bytes) : (o.read key).raw.Unicode := by
  unfold Object.read
  cases found : o.find? key with
  | none => exact fun s member => absurd member List.not_mem_nil
  | some value =>
    have raws := o.find?_raw key
    rw [found] at raws
    exact (Raw.unicode_object.mp h _ (SortedAssoc.mem_of_lookup raws.symm)).2

end Object

namespace picojson

/-! ### Printing -/

theorem serialize_str_char_ascii : ∀ n < 256, if n ≤ 0x7f
    then serialize_str_char (UInt8.ofNat n) ≠ [] ∧ ∀ b ∈ serialize_str_char (UInt8.ofNat n), b.toNat ≤ 0x7f
    else serialize_str_char (UInt8.ofNat n) = [UInt8.ofNat n] := by
  decide +kernel

/-- An escaped character is read like itself. -/
theorem read_serialize_str_char (s : Utf8.Pending) (c : UInt8) (late : Utf8.Late s) :
    Utf8.read s (serialize_str_char c) = Utf8.next s c := by
  have every := serialize_str_char_ascii _ c.toNat_lt
  rw [UInt8.ofNat_toNat] at every
  split at every
  · rename_i ascii
    rw [Utf8.read_ascii late every.1 every.2, Utf8.next_ascii late ascii]
  · rw [every]
    rfl

theorem valid_quoted {text rest : Bytes} : Utf8.Valid (byte '"' :: (text ++ byte '"' :: rest)) ↔
    Utf8.Valid text ∧ Utf8.Valid rest := by
  rw [← Utf8.valid_split (b := byte '"') (by decide)]
  have open_ := @Utf8.valid_split [] (text ++ byte '"' :: rest) (byte '"') (by decide)
  rw [List.nil_append] at open_
  exact open_.trans (and_iff_right Utf8.valid_nil)

theorem isNumeric_ascii : ∀ n < 256, isNumeric (UInt8.ofNat n) = true → n ≤ 0x7f := by decide +kernel

theorem numeric_ascii {ch : UInt8} (numeric : isNumeric ch = true) : ch.toNat ≤ 0x7f := by
  refine isNumeric_ascii _ ch.toNat_lt ?_
  rw [UInt8.ofNat_toNat]
  exact numeric

theorem valid_printNumber (n : Double) : Utf8.Valid (printNumber n) := by
  obtain ⟨text, magnitude, whole, fraction, tail, power, printed, spells, -⟩ := printNumber_spells n
  rw [printed]
  apply Utf8.valid_ascii
  intro b member
  rcases List.mem_append.mp member with sign | inText
  · split at sign
    · obtain rfl := List.mem_singleton.mp sign
      decide
    · cases sign
  · exact numeric_ascii (numeric_spells spells b inText)

theorem valid_serialize_str (s : Bytes) : Utf8.Valid (serialize_str s) ↔ Utf8.Valid s := by
  have quoted := @valid_quoted (s.flatMap serialize_str_char) []
  rw [and_iff_left Utf8.valid_nil, Utf8.valid_flatMap read_serialize_str_char] at quoted
  exact quoted

/-- A text between brackets. -/
theorem valid_bracketed {left right : UInt8} {text : Bytes} (opens : left.toNat ≤ 0x7f) (closes : right.toNat ≤ 0x7f) :
    Utf8.Valid (left :: text ++ [right]) ↔ Utf8.Valid text := by
  have first := @Utf8.valid_split [] text left opens
  rw [List.nil_append, and_iff_right Utf8.valid_nil] at first
  rw [Utf8.valid_split closes, and_iff_left Utf8.valid_nil, first]

mutual

theorem valid_raw : ∀ x : Raw, Utf8.Valid (serialize_raw x) ↔ x.Unicode
  | .null => iff_of_true (by decide +kernel) fun _ member => absurd member List.not_mem_nil
  | .boolean b => iff_of_true (by cases b <;> decide +kernel) fun _ member => absurd member List.not_mem_nil
  | .number n => iff_of_true (valid_printNumber n) fun _ member => absurd member List.not_mem_nil
  | .string s => by
    rw [serialize_raw, valid_serialize_str]
    exact ⟨fun valid t member => List.mem_singleton.mp member ▸ valid, fun all => all s List.mem_cons_self⟩
  | .array items => by
    rw [serialize_raw, valid_bracketed (by decide) (by decide), Raw.unicode_array]
    exact valid_items items
  | .object fields => by
    rw [serialize_raw, valid_bracketed (by decide) (by decide), Raw.unicode_object]
    exact valid_fields fields
termination_by structural x => x

theorem valid_items : ∀ items : List Raw, Utf8.Valid (serialize_items items) ↔ ∀ item ∈ items, item.Unicode
  | [] => iff_of_true Utf8.valid_nil fun _ member => absurd member List.not_mem_nil
  | item :: rest => by
    have here := valid_raw item
    have behind := valid_items rest
    rw [List.forall_mem_cons, ← here, ← behind]
    cases rest with
    | nil => simp [serialize_items, Utf8.valid_nil]
    | cons next rest =>
      have split := serialize_items_cons item next rest []
      simp only [List.append_nil, List.nil_append] at split
      rw [split, Utf8.valid_split (by decide)]
termination_by structural items => items

theorem valid_fields : ∀ fields : List (Bytes × Raw),
    Utf8.Valid (serialize_fields fields) ↔ ∀ field ∈ fields, Utf8.Valid field.1 ∧ field.2.Unicode
  | [] => iff_of_true Utf8.valid_nil fun _ member => absurd member List.not_mem_nil
  | field :: rest => by
    have here := valid_field field
    have behind := valid_fields rest
    rw [List.forall_mem_cons, ← here, ← behind]
    cases rest with
    | nil => simp [serialize_fields, Utf8.valid_nil]
    | cons next rest =>
      have split := serialize_fields_cons field next rest []
      simp only [List.append_nil, List.nil_append] at split
      rw [split, Utf8.valid_split (by decide)]
termination_by structural fields => fields

theorem valid_field : ∀ field : Bytes × Raw,
    Utf8.Valid (serialize_field field) ↔ Utf8.Valid field.1 ∧ field.2.Unicode
  | (key, value) => by
    rw [serialize_field, Utf8.valid_split (by decide), valid_serialize_str, valid_raw value]
termination_by structural field => field

end

end picojson

end Rosbridge
