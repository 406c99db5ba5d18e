import Mathlib.Algebra.Order.Field.Rat
import Mathlib.Tactic.NormNum
import Rosbridge.Library.SortedAssoc

/-!
# JSON values

`picojson::value` and `picojson::object` as the library builds them. An object is a
`std::map<std::string, value>`: its fields are listed by increasing key, at every depth, and the
order is carried by the types. `Bytes` is `std::string`, `Double` a finite `double`, whose sign is apart from
its magnitude, so that there are two zeros.
-/

namespace Rosbridge

abbrev Bytes := List UInt8

def ascii (literal : String) : Bytes := literal.toList.map (fun c => c.toNat.toUInt8)

inductive Exn where
  | runtime_error (what : String)
  | overflow_error (what : String)
  deriving DecidableEq, Repr

@[ext] structure Double where
  negative : Bool
  magnitude : ℚ
  binary64 : ∃ mantissa exponent : ℤ, 0 ≤ mantissa ∧ mantissa < 2 ^ 53 ∧ -1074 ≤ exponent ∧ exponent ≤ 971 ∧
    magnitude = mantissa * 2 ^ exponent

namespace Double

def value (n : Double) : ℚ := if n.negative then -n.magnitude else n.magnitude

def ofInt32 (n : Int32) : Double where
  negative := n.toInt < 0
  magnitude := n.toInt.natAbs
  binary64 := by
    refine ⟨n.toInt.natAbs, 0, by omega, ?_, by norm_num, by norm_num, by simp⟩
    have low := n.minValue_le_toInt
    have high := n.toInt_le
    simp only [Int32.toInt_minValue, Int32.toInt_maxValue] at low high
    omega

instance : DecidableEq Double := fun _ _ => decidable_of_iff _ Double.ext_iff.symm

end Double

inductive Raw where
  | null
  | boolean (b : Bool)
  | number (n : Double)
  | string (s : Bytes)
  | array (items : List Raw)
  | object (fields : List (Bytes × Raw))

inductive Raw.Ordered : Raw → Prop where
  | null : Ordered .null
  | boolean (b : Bool) : Ordered (.boolean b)
  | number (n : Double) : Ordered (.number n)
  | string (s : Bytes) : Ordered (.string s)
  | array {items : List Raw} (each : ∀ item ∈ items, Ordered item) : Ordered (.array items)
  | object {fields : List (Bytes × Raw)} (sorted : SortedAssoc.Sorted fields)
      (each : ∀ field ∈ fields, Ordered field.2) : Ordered (.object fields)

@[ext] structure Value where
  raw : Raw
  ordered : raw.Ordered

@[ext] structure Object where
  fields : List (Bytes × Raw)
  ordered : (Raw.object fields).Ordered

/-! ### `operator==` -/

namespace Raw

mutual

/-- Numbers are compared by `eq`. -/
def beqBy (eq : Double → Double → Bool) : Raw → Raw → Bool
  | .null, y => match y with | .null => true | _ => false
  | .boolean a, y => match y with | .boolean b => a == b | _ => false
  | .number a, y => match y with | .number b => eq a b | _ => false
  | .string a, y => match y with | .string b => a == b | _ => false
  | .array xs, y => match y with | .array ys => beqItems eq xs ys | _ => false
  | .object fs, y => match y with | .object gs => beqFields eq fs gs | _ => false
termination_by structural x => x

def beqItems (eq : Double → Double → Bool) : List Raw → List Raw → Bool
  | [], ys => ys.isEmpty
  | x :: xs, ys => match ys with | y :: ys => beqBy eq x y && beqItems eq xs ys | [] => false
termination_by structural xs => xs

def beqFields (eq : Double → Double → Bool) : List (Bytes × Raw) → List (Bytes × Raw) → Bool
  | [], gs => gs.isEmpty
  | f :: fs, gs => match gs with | g :: gs => beqField eq f g && beqFields eq fs gs | [] => false
termination_by structural fs => fs

def beqField (eq : Double → Double → Bool) : Bytes × Raw → Bytes × Raw → Bool
  | (key, x), g => key == g.1 && beqBy eq x g.2
termination_by structural f => f

end

/-- Both zeros have the same value. -/
def sameValue (a b : Double) : Bool := a.value == b.value

def beq (x y : Raw) : Bool := beqBy sameValue x y

section

variable {eq : Double → Double → Bool}

mutual

theorem eq_of_beqBy (sound : ∀ a b, eq a b = true → a = b) : ∀ x y : Raw, beqBy eq x y = true → x = y
  | .null, y => by cases y <;> simp [beqBy]
  | .boolean a, y => by cases y <;> simp [beqBy]
  | .number a, y => by cases y <;> simp [beqBy]; exact sound a _
  | .string a, y => by cases y <;> simp [beqBy]
  | .array xs, y => by cases y <;> simp [beqBy]; exact eq_of_beqItems sound xs _
  | .object fs, y => by cases y <;> simp [beqBy]; exact eq_of_beqFields sound fs _
termination_by structural x => x

theorem eq_of_beqItems (sound : ∀ a b, eq a b = true → a = b) :
    ∀ xs ys : List Raw, beqItems eq xs ys = true → xs = ys
  | [], ys => by cases ys <;> simp [beqItems]
  | x :: xs, ys => by
    cases ys with
    | nil => simp [beqItems]
    | cons y ys =>
      simp only [beqItems, Bool.and_eq_true]
      rintro ⟨head, tail⟩
      rw [eq_of_beqBy sound x y head, eq_of_beqItems sound xs ys tail]
termination_by structural xs => xs

theorem eq_of_beqFields (sound : ∀ a b, eq a b = true → a = b) :
    ∀ fs gs : List (Bytes × Raw), beqFields eq fs gs = true → fs = gs
  | [], gs => by cases gs <;> simp [beqFields]
  | f :: fs, gs => by
    cases gs with
    | nil => simp [beqFields]
    | cons g gs =>
      simp only [beqFields, Bool.and_eq_true]
      rintro ⟨head, tail⟩
      rw [eq_of_beqField sound f g head, eq_of_beqFields sound fs gs tail]
termination_by structural fs => fs

theorem eq_of_beqField (sound : ∀ a b, eq a b = true → a = b) :
    ∀ f g : Bytes × Raw, beqField eq f g = true → f = g
  | (key, x), (key', y) => by
    simp only [beqField, Bool.and_eq_true, beq_iff_eq]
    rintro ⟨rfl, same⟩
    rw [eq_of_beqBy sound x y same]
termination_by structural f => f

end

mutual

theorem beqBy_refl (refl : ∀ n, eq n n = true) : ∀ x : Raw, beqBy eq x x = true
  | .null => rfl
  | .boolean b => by simp [beqBy]
  | .number n => refl n
  | .string s => by simp [beqBy]
  | .array items => beqItems_refl refl items
  | .object fields => beqFields_refl refl fields
termination_by structural x => x

theorem beqItems_refl (refl : ∀ n, eq n n = true) : ∀ xs : List Raw, beqItems eq xs xs = true
  | [] => rfl
  | x :: xs => by simp [beqItems, beqBy_refl refl x, beqItems_refl refl xs]
termination_by structural xs => xs

theorem beqFields_refl (refl : ∀ n, eq n n = true) : ∀ fs : List (Bytes × Raw), beqFields eq fs fs = true
  | [] => rfl
  | f :: fs => by simp [beqFields, beqField_refl refl f, beqFields_refl refl fs]
termination_by structural fs => fs

theorem beqField_refl (refl : ∀ n, eq n n = true) : ∀ f : Bytes × Raw, beqField eq f f = true
  | (key, x) => by simp [beqField, beqBy_refl refl x]
termination_by structural f => f

end

theorem keys_of_beqFields {fs gs : List (Bytes × Raw)} (same : beqFields eq fs gs = true) :
    fs.map Prod.fst = gs.map Prod.fst := by
  induction fs generalizing gs with
  | nil => cases gs <;> simp_all [beqFields]
  | cons f fs ih =>
    cases gs with
    | nil => simp [beqFields] at same
    | cons g gs =>
      obtain ⟨key, x⟩ := f
      simp only [beqFields, beqField, Bool.and_eq_true, beq_iff_eq] at same
      rw [List.map_cons, List.map_cons, ih same.2, same.1.1]

end

theorem beq_refl (x : Raw) : beq x x = true := beqBy_refl (fun n => beq_self_eq_true n.value) x

instance : DecidableEq Raw := fun x y =>
  decidable_of_iff (beqBy (fun a b => a = b) x y = true)
    ⟨eq_of_beqBy (fun _ _ same => of_decide_eq_true same) x y,
      fun same => same ▸ beqBy_refl (fun _ => decide_eq_true rfl) x⟩

end Raw

instance : DecidableEq Value := fun x y => decidable_of_iff (x.raw = y.raw) Value.ext_iff.symm

instance : DecidableEq Object := fun x y => decidable_of_iff (x.fields = y.fields) Object.ext_iff.symm

/-! ### The constructors of `picojson::value` -/

namespace Value

def null : Value := ⟨.null, .null⟩
def ofBool (b : Bool) : Value := ⟨.boolean b, .boolean b⟩
def ofDouble (n : Double) : Value := ⟨.number n, .number n⟩
def ofString (s : Bytes) : Value := ⟨.string s, .string s⟩
def ofObject (o : Object) : Value := ⟨.object o.fields, o.ordered⟩

def ofArray (items : List Value) : Value :=
  ⟨.array (items.map raw), .array (by
    intro item member
    obtain ⟨value, -, rfl⟩ := List.mem_map.mp member
    exact value.ordered)⟩

theorem ofString_ne_null (s : Bytes) : ofString s ≠ null := by simp [ofString, null]

theorem ofString_injective {s t : Bytes} (same : ofString s = ofString t) : s = t := by
  simpa [ofString] using same

/-! ### `get<T>` and `is<T>` -/

/-- What `PICOJSON_ASSERT` throws in `get<T>`. -/
def mismatch (ctype : String) : Exn :=
  .runtime_error ("\"type mismatch! call is<type>() before get<type>()\" && is<" ++ ctype ++ ">()")

def getBool : Value → Except Exn Bool
  | ⟨.boolean b, _⟩ => .ok b
  | _ => .error (mismatch "bool")

def getString : Value → Except Exn Bytes
  | ⟨.string s, _⟩ => .ok s
  | _ => .error (mismatch "std::string")

def getObject : Value → Except Exn Object
  | ⟨.object fields, ordered⟩ => .ok ⟨fields, ordered⟩
  | _ => .error (mismatch "object")

def isString : Value → Bool
  | ⟨.string _, _⟩ => true
  | _ => false

@[simp] theorem getBool_ofBool (b : Bool) : (ofBool b).getBool = .ok b := rfl
@[simp] theorem getString_ofString (s : Bytes) : (ofString s).getString = .ok s := rfl
@[simp] theorem getObject_ofObject (o : Object) : (ofObject o).getObject = .ok o := rfl
@[simp] theorem isString_ofString (s : Bytes) : (ofString s).isString = true := rfl

theorem getString_ok {v : Value} {s : Bytes} : v.getString = .ok s ↔ v = ofString s := by
  obtain ⟨raw, ordered⟩ := v
  cases raw <;> simp [getString, ofString]

theorem getBool_ok {v : Value} {b : Bool} : v.getBool = .ok b ↔ v = ofBool b := by
  obtain ⟨raw, ordered⟩ := v
  cases raw <;> simp [getBool, ofBool]

theorem getObject_ok {v : Value} {o : Object} : v.getObject = .ok o ↔ v = ofObject o := by
  obtain ⟨raw, ordered⟩ := v
  cases raw <;> simp [getObject, ofObject, Object.ext_iff]

end Value

/-! ### `std::map<std::string, value>` -/

namespace Object

def empty : Object := ⟨[], .object (by simp [SortedAssoc.Sorted]) (by simp)⟩

theorem field_ordered (o : Object) : ∀ field ∈ o.fields, field.2.Ordered := by
  cases o.ordered with
  | object _ each => exact each

theorem sorted (o : Object) : SortedAssoc.Sorted o.fields := by
  cases o.ordered with
  | object sorted _ => exact sorted

def find? (o : Object) (key : Bytes) : Option Value :=
  match found : o.fields.lookup key with
  | none => none
  | some raw => some ⟨raw, o.field_ordered _ (SortedAssoc.mem_of_lookup found)⟩

def insert (o : Object) (key : Bytes) (value : Value) : Object where
  fields := SortedAssoc.insert key value.raw o.fields
  ordered := .object (SortedAssoc.insert_sorted key value.raw o.sorted) (by
    intro field member
    rcases SortedAssoc.mem_insert member with rfl | old
    · exact value.ordered
    · exact o.field_ordered field old)

/-- The value `json[key]` denotes: `operator[]` default-constructs a null for a missing key. -/
def read (o : Object) (key : Bytes) : Value := (o.find? key).getD .null

/-- What evaluating `json[key]` leaves behind: a missing key is inserted. -/
def touch (o : Object) (key : Bytes) : Object :=
  if (o.find? key).isSome then o else o.insert key .null

theorem find?_raw (o : Object) (key : Bytes) :
    (o.find? key).map Value.raw = o.fields.lookup key := by
  unfold find?
  split
  · rename_i found; simp [found]
  · rename_i found; simp [found]

theorem find?_congr {o o' : Object} {key : Bytes}
    (same : o.fields.lookup key = o'.fields.lookup key) : o.find? key = o'.find? key := by
  have raws := (o.find?_raw key).trans (same.trans (o'.find?_raw key).symm)
  cases h : o.find? key <;> cases h' : o'.find? key <;> simp [h, h', Value.ext_iff] at raws ⊢
  exact raws

@[simp] theorem find?_insert_self (o : Object) (key : Bytes) (value : Value) :
    (o.insert key value).find? key = some value := by
  have raws := find?_raw (o.insert key value) key
  simp only [insert, SortedAssoc.lookup_insert_self] at raws
  obtain ⟨found, same, rawSame⟩ := Option.map_eq_some_iff.mp raws
  rw [insert, same, Value.ext rawSame]

theorem find?_insert_of_ne (o : Object) {key other : Bytes} (value : Value)
    (different : other ≠ key) : (o.insert key value).find? other = o.find? other :=
  find?_congr (SortedAssoc.lookup_insert_of_ne value.raw o.fields different)

theorem find?_insert (o : Object) (key other : Bytes) (value : Value) :
    (o.insert key value).find? other = if other = key then some value else o.find? other := by
  by_cases same : other = key
  · subst same; simp
  · simp [same, find?_insert_of_ne o value same]

@[simp] theorem read_insert_self (o : Object) (key : Bytes) (value : Value) :
    (o.insert key value).read key = value := by simp [read]

theorem read_insert_of_ne (o : Object) {key other : Bytes} (value : Value)
    (different : other ≠ key) : (o.insert key value).read other = o.read other := by
  simp [read, find?_insert_of_ne o value different]

/-- `operator[]` changes no value that `operator[]` reads. -/
@[simp] theorem read_touch (o : Object) (key other : Bytes) :
    (o.touch key).read other = o.read other := by
  unfold touch
  split
  · rfl
  · rename_i missing
    by_cases same : other = key
    · subst same
      simp only [Option.not_isSome_iff_eq_none] at missing
      simp [read, missing]
    · exact read_insert_of_ne o .null same

/-- A field that was read is left as it is. -/
theorem touch_of_read {o : Object} {key : Bytes} (present : o.read key ≠ .null) : o.touch key = o := by
  unfold touch
  split
  · rfl
  · rename_i missing
    simp only [Option.not_isSome_iff_eq_none] at missing
    simp [read, missing] at present

theorem find?_touch_isSome (o : Object) (key other : Bytes) :
    ((o.touch key).find? other).isSome = true ↔ other = key ∨ (o.find? other).isSome = true := by
  unfold touch
  split
  · rename_i present
    constructor
    · exact .inr
    · rintro (rfl | found)
      · exact present
      · exact found
  · rw [find?_insert]
    by_cases same : other = key <;> simp [same]

theorem touch_eq_iff {o : Object} {key : Bytes} : o.touch key = o ↔ (o.find? key).isSome = true := by
  constructor
  · intro same
    rw [← same]
    exact (o.find?_touch_isSome key key).mpr (.inl rfl)
  · intro present
    rw [touch, if_pos present]

@[simp] theorem touch_touch (o : Object) (key : Bytes) : (o.touch key).touch key = o.touch key :=
  touch_eq_iff.mpr ((o.find?_touch_isSome key key).mpr (.inl rfl))

theorem find?_foldl_touch_isSome (keys : List Bytes) (o : Object) (other : Bytes) :
    ((keys.foldl touch o).find? other).isSome = true ↔ other ∈ keys ∨ (o.find? other).isSome = true := by
  induction keys generalizing o with
  | nil => simp
  | cons key rest ih =>
    rw [List.foldl_cons, ih, find?_touch_isSome, List.mem_cons]
    tauto

/-- Looking up several keys changes an object exactly when one of them is missing. -/
theorem foldl_touch_eq_iff {o : Object} {keys : List Bytes} :
    keys.foldl touch o = o ↔ ∀ key ∈ keys, (o.find? key).isSome = true := by
  constructor
  · intro same key member
    rw [← same]
    exact (find?_foldl_touch_isSome keys o key).mpr (.inl member)
  · intro present
    induction keys with
    | nil => rfl
    | cons key rest ih =>
      obtain ⟨here, others⟩ := List.forall_mem_cons.mp present
      rw [List.foldl_cons, touch_eq_iff.mpr here]
      exact ih others

/-- Only the keys decide which fields are found. -/
theorem find?_isSome_congr {o o' : Object} (same : o.fields.map Prod.fst = o'.fields.map Prod.fst)
    (key : Bytes) : (o.find? key).isSome = true ↔ (o'.find? key).isSome = true := by
  have mem (o : Object) : (o.find? key).isSome = true ↔ key ∈ o.fields.map Prod.fst := by
    rw [← Option.isSome_map, find?_raw, List.lookup_isSome_iff]
    simp only [List.mem_map, beq_iff_eq, @eq_comm _ _ key]
  rw [mem, mem, same]

end Object

end Rosbridge
