import Rosbridge.Picojson.Document

/-!
# picojson among others

`serialize` writes nothing but standard texts of UTF-8 values, and `parse` takes each standard text for what it
stands for, unless one of its escapes is an unpaired surrogate.
-/

namespace Rosbridge.picojson

open JsonText

/-! ### What is printed -/

theorem whole_of_spells {text whole fraction tail : Bytes} {magnitude : ℚ} {power : ℤ}
    (spells : Spells text magnitude whole fraction tail power) : Whole whole := by
  rcases spells.leading with rfl | leading
  · exact .zero
  · have digits := spells.digits
    cases whole with
    | nil => exact absurd rfl spells.some_digit
    | cons d rest =>
      obtain ⟨first, others⟩ := List.forall_mem_cons.mp digits
      have behind : ∀ c ∈ rest, Digit c := fun c member => isDigit_iff.mp (others c member)
      refine .digits (isDigit_iff.mp first) (fun zero => leading d rfl ?_) behind
      exact UInt8.toNat_inj.mp zero

theorem fraction_of_decimals {fraction : Bytes} (decimals : ∀ ch ∈ fraction, isDigit ch = true) :
    Fraction (point fraction) fraction := by
  cases fraction with
  | nil => exact .none
  | cons d rest => exact .digits (List.cons_ne_nil _ _) fun c member => isDigit_iff.mp (decimals c member)

theorem exponent_of_text {power : ℤ} {tail : Bytes} (h : ExponentText power tail) : Exponent tail power := by
  cases h with
  | none => exact .none
  | power negative digits every some_digit =>
    have each : ∀ b ∈ digits, Digit b := fun b member => isDigit_iff.mp (every b member)
    rw [← natural_eq each]
    cases negative with
    | true =>
      have scaled := @Exponent.power (byte 'e') _ _ _ (by decide +kernel) .minus some_digit each
      exact scaled
    | false =>
      have scaled := @Exponent.power (byte 'e') _ _ _ (by decide +kernel) .plus some_digit each
      exact scaled

theorem number_is_standard (n : Double) :
    ∃ negative q, Number (printNumber n) negative q ∧ nearest (negative, q) = some n := by
  obtain ⟨text, magnitude, whole, fraction, tail, power, printed, spells, -⟩ := printNumber_spells n
  have standard := Number.mk n.negative (whole_of_spells spells) (fraction_of_decimals spells.decimals)
    (exponent_of_text spells.tail)
  rw [← spells.text] at standard
  have same : (if n.negative then word "-" else []) ++ text = printNumber n := printed.symm
  rw [same] at standard
  refine ⟨_, _, standard, ?_⟩
  have value := nearest_strtod_printNumber n
  rwa [(number_is_read standard).1] at value

/-- The three ways in which an ASCII character is printed. -/
theorem serialize_str_char_cases : ∀ n < 128,
    serialize_str_char (UInt8.ofNat n) = [UInt8.ofNat n] ∧ 0x20 ≤ n ∧ n ≠ 0x22 ∧ n ≠ 0x5c ∨
    (∃ p ∈ escaped, p.2.val.toNat = n ∧ serialize_str_char (UInt8.ofNat n) = [byte '\\', p.1.toUInt8]) ∨
    serialize_str_char (UInt8.ofNat n) = word "\\u" ++ (serialize_str_char (UInt8.ofNat n)).drop 2 ∧
      Quad ((serialize_str_char (UInt8.ofNat n)).drop 2) n := by
  decide +kernel

theorem char_is_standard (c : Char) {text : Bytes} {s : List Char} (rest : JsonText.StringText text s) :
    JsonText.StringText ((String.utf8EncodeChar c).flatMap serialize_str_char ++ text) (c :: s) := by
  rcases Utf8.encode_ascii c with ⟨ascii, encoded⟩ | ⟨beyond, large⟩
  · rw [encoded, List.flatMap_singleton]
    rcases serialize_str_char_cases _ (Nat.lt_succ_of_le ascii) with
      ⟨itself, printable, quote, backslash⟩ | ⟨⟨letter, d⟩, known, number, printed⟩ | ⟨printed, quad⟩
    · rw [itself, ← encoded]
      refine .plain printable ?_ ?_ rest
      · rintro rfl
        exact quote rfl
      · rintro rfl
        exact backslash rfl
    · obtain rfl : d = c := Char.ext (UInt32.toNat_inj.mp number)
      rw [printed]
      exact .escape known rest
    · rw [printed, List.append_assoc]
      exact .single quad rest
  · have itself : (String.utf8EncodeChar c).flatMap serialize_str_char = String.utf8EncodeChar c := by
      generalize String.utf8EncodeChar c = bytes at large
      induction bytes with
      | nil => rfl
      | cons b bytes ih =>
        obtain ⟨first, others⟩ := List.forall_mem_cons.mp large
        have every := serialize_str_char_ascii _ b.toNat_lt
        rw [UInt8.ofNat_toNat, if_neg (by omega)] at every
        rw [List.flatMap_cons, every, ih others]
        rfl
    rw [itself]
    refine .plain (by omega) ?_ ?_ rest
    · rintro rfl
      exact absurd beyond (by decide)
    · rintro rfl
      exact absurd beyond (by decide)

theorem string_is_standard (s : List Char) :
    JsonText.StringText ((encode s).flatMap serialize_str_char ++ [byte '"']) s := by
  induction s with
  | nil => exact .close
  | cons c s ih =>
    rw [encode, List.flatMap_cons, List.flatMap_append, List.append_assoc]
    exact char_is_standard c ih

/-! ### Values that are printed -/

theorem blank_nil : Blank [] := fun _ member => absurd member List.not_mem_nil

mutual

theorem value_is_standard : ∀ (x : Raw) (ordered : x.Ordered), x.Unicode →
    ∃ tree, JsonText.ValueText (serialize_raw x) tree ∧ ofTree tree = some ⟨x, ordered⟩
  | .null, _, _ => ⟨.null, .null, rfl⟩
  | .boolean b, _, _ => by
    cases b with
    | true => exact ⟨.boolean true, .boolean true, rfl⟩
    | false => exact ⟨.boolean false, .boolean false, rfl⟩
  | .number n, _, _ => by
    obtain ⟨negative, q, number, rounded⟩ := number_is_standard n
    refine ⟨.number negative q, .number number, ?_⟩
    rw [ofTree, rounded]
    rfl
  | .string s, _, unicode => by
    obtain ⟨cs, rfl⟩ := unicode s List.mem_cons_self
    have denotes := JsonText.ValueText.string (string_is_standard cs)
    exact ⟨.string cs, denotes, rfl⟩
  | .array xs, ordered, unicode => by
    have each_unicode := Raw.unicode_array.mp unicode
    cases ordered with
    | array each =>
      by_cases none : xs = []
      · subst none
        have denotes := JsonText.ValueText.emptyArray blank_nil
        exact ⟨.array [], denotes, rfl⟩
      · obtain ⟨items, vs, same, inside, made⟩ := items_are_standard xs none each each_unicode
        have denotes := JsonText.ValueText.array blank_nil inside
        refine ⟨.array items, denotes, ?_⟩
        subst same
        rw [ofTree, made]
        rfl
  | .object fs, ordered, unicode => by
    have each_unicode := Raw.unicode_object.mp unicode
    cases ordered with
    | object sorted each =>
      by_cases none : fs = []
      · subst none
        have denotes := JsonText.ValueText.emptyObject blank_nil
        exact ⟨.object [], denotes, rfl⟩
      · obtain ⟨fields, inside, makes⟩ := fields_are_standard fs none sorted each each_unicode
        obtain ⟨o, same, made⟩ := makes .empty fun _ member => absurd member List.not_mem_nil
        obtain rfl : o.fields = fs := same
        have denotes := JsonText.ValueText.object blank_nil inside
        refine ⟨.object fields, denotes, ?_⟩
        rw [ofTree, made]
        rfl
termination_by structural x => x

theorem items_are_standard : ∀ xs : List Raw, xs ≠ [] → (∀ x ∈ xs, x.Ordered) → (∀ x ∈ xs, x.Unicode) →
    ∃ (items : List Tree) (vs : List Value), vs.map Value.raw = xs ∧
      JsonText.ItemsText (serialize_items xs ++ [byte ']']) items ∧ ofItems items = some vs
  | [], some_item, _, _ => absurd rfl some_item
  | item :: rest, _, each, unicode => by
    obtain ⟨tree, here, made⟩ := value_is_standard item (each item List.mem_cons_self) (unicode item List.mem_cons_self)
    cases rest with
    | nil =>
      have last := JsonText.ItemsText.last here blank_nil
      rw [serialize_items_last]
      refine ⟨[tree], [⟨item, each item List.mem_cons_self⟩], rfl, last, ?_⟩
      rw [ofItems, made]
      rfl
    | cons next rest =>
      obtain ⟨items, vs, same, inside, made'⟩ := items_are_standard (next :: rest) (List.cons_ne_nil _ _)
        (List.forall_mem_cons.mp each).2 (List.forall_mem_cons.mp unicode).2
      have more := JsonText.ItemsText.more here blank_nil blank_nil inside
      rw [serialize_items_cons]
      refine ⟨tree :: items, ⟨item, each item List.mem_cons_self⟩ :: vs, congrArg (item :: ·) same, more, ?_⟩
      rw [ofItems, made, made']
      rfl
termination_by structural xs => xs

theorem fields_are_standard : ∀ fs : List (Bytes × Raw), fs ≠ [] → SortedAssoc.Sorted fs → (∀ x ∈ fs, x.2.Ordered) →
    (∀ x ∈ fs, Utf8.Valid x.1 ∧ x.2.Unicode) →
    ∃ fields, JsonText.FieldsText (serialize_fields fs ++ [byte '\x7d']) fields ∧
      ∀ before : Object, (∀ old ∈ before.fields, ∀ x ∈ fs, old.1 < x.1) →
        ∃ o : Object, o.fields = before.fields ++ fs ∧ ofFields fields before = some o
  | [], some_field, _, _, _ => absurd rfl some_field
  | field :: rest, _, sorted, each, unicode => by
    obtain ⟨named, here, made⟩ :=
      field_is_standard field (each field List.mem_cons_self) (unicode field List.mem_cons_self)
    have ordered := each field List.mem_cons_self
    cases rest with
    | nil =>
      have last := JsonText.FieldsText.last here blank_nil
      rw [serialize_fields_last]
      refine ⟨[named], last, fun before above => ⟨_, fields_insert_last ordered above, ?_⟩⟩
      rw [ofFields, made]
      rfl
    | cons next rest =>
      obtain ⟨first, sorted'⟩ := List.pairwise_cons.mp sorted
      obtain ⟨fields, inside, makes⟩ := fields_are_standard (next :: rest) (List.cons_ne_nil _ _) sorted'
        (List.forall_mem_cons.mp each).2 (List.forall_mem_cons.mp unicode).2
      have more := JsonText.FieldsText.more here blank_nil blank_nil inside
      rw [serialize_fields_cons]
      refine ⟨named :: fields, more, fun before above => ?_⟩
      obtain ⟨o, same, made'⟩ := makes _ (fields_above_last ordered first above)
      refine ⟨o, by rw [same, fields_insert_last ordered above, List.append_assoc]; rfl, ?_⟩
      rw [ofFields, made]
      exact made'
termination_by structural fs => fs

theorem field_is_standard : ∀ (field : Bytes × Raw) (ordered : field.2.Ordered),
    Utf8.Valid field.1 ∧ field.2.Unicode → ∃ named, JsonText.FieldText (serialize_field field) named ∧
      ofField named = some (field.1, ⟨field.2, ordered⟩)
  | (key, x), ordered, unicode => by
    obtain ⟨⟨cs, rfl⟩, inside⟩ := unicode
    obtain ⟨tree, here, made⟩ := value_is_standard x ordered inside
    have denotes := JsonText.FieldText.mk (string_is_standard cs) blank_nil blank_nil here
    rw [serialize_field_eq]
    refine ⟨(cs, tree), denotes, ?_⟩
    rw [ofField, made]
    rfl
termination_by structural field => field

end

/-! ### Both ways -/

theorem valid_encode (s : List Char) : Utf8.Valid (encode s) := ⟨s, rfl⟩

mutual

theorem unicode_ofTree : ∀ (tree : Tree) {v : Value}, ofTree tree = some v → v.raw.Unicode
  | .null, v, made => by
    cases made
    exact fun _ member => absurd member List.not_mem_nil
  | .boolean b, v, made => by
    cases made
    exact fun _ member => absurd member List.not_mem_nil
  | .number negative q, v, made => by
    obtain ⟨n, -, rfl⟩ := Option.map_eq_some_iff.mp made
    exact fun _ member => absurd member List.not_mem_nil
  | .string s, v, made => by
    cases made
    intro t member
    obtain rfl := List.mem_singleton.mp member
    exact valid_encode s
  | .array items, v, made => by
    obtain ⟨vs, each, rfl⟩ := Option.map_eq_some_iff.mp made
    exact unicode_ofArray.mpr (unicode_ofItems items each)
  | .object fields, v, made => by
    obtain ⟨o, each, rfl⟩ := Option.map_eq_some_iff.mp made
    exact unicode_ofFields fields Object.unicode_empty each
termination_by structural tree => tree

theorem unicode_ofItems : ∀ (items : List Tree) {vs : List Value}, ofItems items = some vs →
    ∀ v ∈ vs, v.raw.Unicode
  | [], vs, made => by
    cases made
    exact fun v member => absurd member List.not_mem_nil
  | item :: rest, vs, made => by
    obtain ⟨v, here, made⟩ := Option.bind_eq_some_iff.mp made
    obtain ⟨vs', behind, made⟩ := Option.bind_eq_some_iff.mp made
    cases made
    exact List.forall_mem_cons.mpr ⟨unicode_ofTree item here, unicode_ofItems rest behind⟩
termination_by structural items => items

theorem unicode_ofFields : ∀ (fields : List (List Char × Tree)) {o o' : Object}, o.Unicode →
    ofFields fields o = some o' → o'.Unicode
  | [], o, o', before, made => by
    cases made
    exact before
  | field :: rest, o, o', before, made => by
    obtain ⟨⟨key, v⟩, here, behind⟩ := Option.bind_eq_some_iff.mp made
    obtain ⟨named, valued⟩ := unicode_ofField field here
    exact unicode_ofFields rest (before.insert named valued) behind
termination_by structural fields => fields

theorem unicode_ofField : ∀ (field : List Char × Tree) {key : Bytes} {v : Value}, ofField field = some (key, v) →
    Utf8.Valid key ∧ v.raw.Unicode
  | (name, tree), key, v, made => by
    obtain ⟨v', here, same⟩ := Option.map_eq_some_iff.mp made
    cases same
    exact ⟨valid_encode name, unicode_ofTree tree here⟩
termination_by structural field => field

end

/-- Every standard text is read as what it stands for, if that fits. The text of a value stands for that value if its
strings are UTF-8, and is no standard text of a value otherwise. -/
theorem speaks_json (message : Bytes) (v : Value) :
    (∀ tree, Document message tree → parse message =
      match ofTree tree with
      | some read => .ok (read, [])
      | none => .error (.overflow_error "")) ∧
    ((∃ tree w, Document (serialize v) tree ∧ ofTree tree = some w) ↔ v.raw.Unicode) ∧
    ∀ tree w, Document (serialize v) tree → ofTree tree = some w → w = v := by
  have same (tree : Tree) (w : Value) (document : Document (serialize v) tree) (made : ofTree tree = some w) :
      w = v := by
    have read := document_is_read document made
    rw [parse_serialize] at read
    exact (Prod.mk.inj (Except.ok.inj read)).1.symm
  refine ⟨fun tree document => ?_, ⟨?_, fun unicode => ?_⟩, same⟩
  · cases made : ofTree tree with
    | some read => exact document_is_read document made
    | none => exact document_throws document made
  · rintro ⟨tree, w, document, made⟩
    rw [← same tree w document made]
    exact unicode_ofTree tree made
  · obtain ⟨tree, denotes, made⟩ := value_is_standard v.raw v.ordered unicode
    have document := Document.mk blank_nil denotes blank_nil
    rw [List.nil_append, List.append_nil] at document
    exact ⟨tree, v, document, made⟩

theorem speaks_json_pair :
    parse (ascii "[\"\\ud83d\\ude00\" ]") = .ok (.ofArray [.ofString [0xf0, 0x9f, 0x98, 0x80]], []) := by
  have face : JsonText.StringText (ascii "\\ud83d\\ude00\"") [Char.ofNat 0x1f600] := by
    have quad : Quad (ascii "d83d") 0xd83d ∧ Quad (ascii "de00") 0xde00 := by decide +kernel
    exact .pair quad.1 quad.2 ⟨by decide, by decide⟩ ⟨by decide, by decide⟩ (by decide) .close
  have space : ∀ b ∈ ascii " ", b ∈ word " \t\n\r" := by decide +kernel
  have item := JsonText.ItemsText.last (.string face) space
  have document := Document.mk blank_nil (.array blank_nil item) blank_nil
  exact (speaks_json _ .null).1 _ document

end Rosbridge.picojson
