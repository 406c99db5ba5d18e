import Mathlib.Algebra.Order.Field.Rat
import Rosbridge.Library.Utf8

/-!
# JSON texts

The standard grammar of JSON in the bytes of UTF-8, and what a text stands for: a tree with exact numbers, the
sign of each apart from its magnitude, and with characters for the strings. The grammar has escapes for surrogate
pairs only: one half of a pair without the other is no character.
-/

namespace JsonText

abbrev Text := List UInt8

inductive Tree where
  | null
  | boolean (b : Bool)
  | number (negative : Bool) (magnitude : ℚ)
  | string (s : List Char)
  | array (items : List Tree)
  | object (fields : List (List Char × Tree))

/-- The last field of that name counts. -/
def field? (name : String) : List (List Char × Tree) → Option Tree
  | [] => none
  | (key, tree) :: rest => (field? name rest).or (if key = name.toList then some tree else none)

def word (letters : String) : Text := letters.toList.map Char.toUInt8

def Blank (text : Text) : Prop := ∀ b ∈ text, b ∈ word " \t\n\r"

/-! ### Numbers -/

def Digit (b : UInt8) : Prop := 0x30 ≤ b.toNat ∧ b.toNat ≤ 0x39

def natural (digits : Text) : Nat := digits.foldl (fun n b => 10 * n + (b.toNat - 0x30)) 0

inductive Whole : Text → Prop where
  | zero : Whole (word "0")
  | digits {b : UInt8} {rest : Text} (first : Digit b) (nonzero : b.toNat ≠ 0x30) (others : ∀ c ∈ rest, Digit c) :
      Whole (b :: rest)

inductive Fraction : Text → Text → Prop where
  | none : Fraction [] []
  | digits {ds : Text} (some_digit : ds ≠ []) (each : ∀ b ∈ ds, Digit b) : Fraction ('.'.toUInt8 :: ds) ds

inductive Sign : Text → Bool → Prop where
  | none : Sign [] false
  | plus : Sign (word "+") false
  | minus : Sign (word "-") true

inductive Exponent : Text → ℤ → Prop where
  | none : Exponent [] 0
  | power {mark : UInt8} {sign ds : Text} {negative : Bool} (marked : mark ∈ word "eE") (signed : Sign sign negative)
      (some_digit : ds ≠ []) (each : ∀ b ∈ ds, Digit b) :
      Exponent (mark :: (sign ++ ds)) (if negative then -(natural ds : ℤ) else natural ds)

inductive Number : Text → Bool → ℚ → Prop where
  | mk (negative : Bool) {whole point ds exponent : Text} {power : ℤ} (integer : Whole whole)
      (fraction : Fraction point ds) (scaled : Exponent exponent power) :
      Number ((if negative then word "-" else []) ++ (whole ++ (point ++ exponent))) negative
        (natural (whole ++ ds) * 10 ^ (power - ds.length))

/-! ### Strings -/

def hexadecimal (b : UInt8) : Option Nat :=
  if 0x30 ≤ b.toNat ∧ b.toNat ≤ 0x39 then some (b.toNat - 0x30)
  else if 0x41 ≤ b.toNat ∧ b.toNat ≤ 0x46 then some (b.toNat - 0x41 + 10)
  else if 0x61 ≤ b.toNat ∧ b.toNat ≤ 0x66 then some (b.toNat - 0x61 + 10)
  else none

def Quad (digits : Text) (n : Nat) : Prop :=
  digits.length = 4 ∧ digits.foldlM (fun n b => (hexadecimal b).map (n * 16 + ·)) 0 = some n

instance (digits : Text) (n : Nat) : Decidable (Quad digits n) := inferInstanceAs (Decidable (_ ∧ _))

def escaped : List (Char × Char) :=
  [('"', '"'), ('\\', '\\'), ('/', '/'), ('b', '\x08'), ('f', '\x0c'), ('n', '\n'), ('r', '\r'), ('t', '\t')]

/-- A string from behind its opening quote, without escapes of unpaired surrogates. -/
inductive StringText : Text → List Char → Prop where
  | close : StringText (word "\"") []
  | plain {c : Char} {text : Text} {s : List Char} (printable : 0x20 ≤ c.val.toNat) (quote : c ≠ '"')
      (backslash : c ≠ '\\') (rest : StringText text s) : StringText (String.utf8EncodeChar c ++ text) (c :: s)
  | escape {letter c : Char} {text : Text} {s : List Char} (known : (letter, c) ∈ escaped)
      (rest : StringText text s) : StringText ('\\'.toUInt8 :: letter.toUInt8 :: text) (c :: s)
  | single {digits text : Text} {c : Char} {s : List Char} (quad : Quad digits c.val.toNat)
      (rest : StringText text s) : StringText (word "\\u" ++ (digits ++ text)) (c :: s)
  | pair {high low text : Text} {first second : Nat} {c : Char} {s : List Char} (quad : Quad high first)
      (quad' : Quad low second) (leads : 0xd800 ≤ first ∧ first < 0xdc00) (trails : 0xdc00 ≤ second ∧ second ≤ 0xdfff)
      (number : c.val.toNat = (first - 0xd800) * 0x400 + (second - 0xdc00) + 0x10000) (rest : StringText text s) :
      StringText (word "\\u" ++ (high ++ (word "\\u" ++ (low ++ text)))) (c :: s)

/-! ### Values -/

mutual

inductive ValueText : Text → Tree → Prop where
  | null : ValueText (word "null") .null
  | boolean (b : Bool) : ValueText (word (if b then "true" else "false")) (.boolean b)
  | number {text : Text} {negative : Bool} {q : ℚ} (digits : Number text negative q) :
      ValueText text (.number negative q)
  | string {text : Text} {s : List Char} (inside : StringText text s) : ValueText (word "\"" ++ text) (.string s)
  | emptyArray {spaces : Text} (blank : Blank spaces) : ValueText (word "[" ++ (spaces ++ word "]")) (.array [])
  | array {spaces text : Text} {items : List Tree} (blank : Blank spaces) (inside : ItemsText text items) :
      ValueText (word "[" ++ (spaces ++ text)) (.array items)
  | emptyObject {spaces : Text} (blank : Blank spaces) :
      ValueText (word "\x7b" ++ (spaces ++ word "\x7d")) (.object [])
  | object {spaces text : Text} {fields : List (List Char × Tree)} (blank : Blank spaces)
      (inside : FieldsText text fields) : ValueText (word "\x7b" ++ (spaces ++ text)) (.object fields)

inductive ItemsText : Text → List Tree → Prop where
  | last {text after : Text} {item : Tree} (here : ValueText text item) (blank : Blank after) :
      ItemsText (text ++ (after ++ word "]")) [item]
  | more {text after before behind : Text} {item : Tree} {items : List Tree} (here : ValueText text item)
      (blank : Blank after) (blank' : Blank before) (rest : ItemsText behind items) :
      ItemsText (text ++ (after ++ (word "," ++ (before ++ behind)))) (item :: items)

inductive FieldText : Text → List Char × Tree → Prop where
  | mk {name before around text : Text} {key : List Char} {value : Tree} (named : StringText name key)
      (blank : Blank before) (blank' : Blank around) (here : ValueText text value) :
      FieldText (word "\"" ++ (name ++ (before ++ (word ":" ++ (around ++ text))))) (key, value)

inductive FieldsText : Text → List (List Char × Tree) → Prop where
  | last {text after : Text} {field : List Char × Tree} (here : FieldText text field) (blank : Blank after) :
      FieldsText (text ++ (after ++ word "\x7d")) [field]
  | more {text after before behind : Text} {field : List Char × Tree} {fields : List (List Char × Tree)}
      (here : FieldText text field) (blank : Blank after) (blank' : Blank before) (rest : FieldsText behind fields) :
      FieldsText (text ++ (after ++ (word "," ++ (before ++ behind)))) (field :: fields)

end

inductive Document : Text → Tree → Prop where
  | mk {before text after : Text} {tree : Tree} (blank : Blank before) (value : ValueText text tree)
      (blank' : Blank after) : Document (before ++ (text ++ after)) tree

end JsonText
