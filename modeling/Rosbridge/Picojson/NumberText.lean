import Rosbridge.Library.FloatingPoint
import Rosbridge.Picojson.Number

/-!
# Numbers are read as they were printed

`strtod` undoes the two formats up to the digits that `%.17g` leaves out, and 17 digits are enough for
`nearest` to find the `double` again.
-/

namespace Rosbridge.picojson

/-! ### Digits -/

theorem isDigit_iff {ch : UInt8} : isDigit ch = true ↔ 48 ≤ ch.toNat ∧ ch.toNat ≤ 57 := by
  simp [isDigit, byte, UInt8.le_iff_toNat_le]

theorem fromDecimal_append (xs ys : Bytes) :
    fromDecimal (xs ++ ys) = fromDecimal xs * 10 ^ ys.length + fromDecimal ys := by
  have general (ys : Bytes) : ∀ n : Nat,
      ys.foldl (fun n digit => 10 * n + (digit - byte '0').toNat) n = n * 10 ^ ys.length + fromDecimal ys := by
    induction ys with
    | nil => simp [fromDecimal]
    | cons y ys ih =>
      intro n
      rw [fromDecimal, List.foldl_cons, List.foldl_cons, ih, ih (10 * 0 + _), List.length_cons, pow_succ]
      ring
  rw [fromDecimal, List.foldl_append, general]
  rfl

theorem fromDecimal_zeros (n : Nat) : fromDecimal (List.replicate n (byte '0')) = 0 := by
  induction n with
  | zero => rfl
  | succ n ih => rw [List.replicate_succ', fromDecimal_append, ih]; rfl

theorem decimal_eq (n : Nat) : decimal n = (Nat.toDigits 10 n).map fun c => c.toNat.toUInt8 := by
  have list : (toString n).toList = Nat.toDigits 10 n := Nat.toList_repr
  rw [decimal, ascii, list]

theorem digit_toNat {c : Char} (digit : c.isDigit = true) :
    48 ≤ c.toNat ∧ c.toNat ≤ 57 ∧ c.toNat.toUInt8.toNat = c.toNat := by
  have bounds : 48 ≤ c.toNat ∧ c.toNat ≤ 57 := by
    simpa [Char.isDigit, UInt32.le_iff_toNat_le] using digit
  refine ⟨bounds.1, bounds.2, ?_⟩
  rw [UInt8.toNat_ofNat']
  omega

theorem isDigit_decimal (n : Nat) : ∀ ch ∈ decimal n, isDigit ch = true := by
  intro ch member
  rw [decimal_eq] at member
  obtain ⟨c, digit, rfl⟩ := List.mem_map.mp member
  obtain ⟨low, high, same⟩ := digit_toNat (Nat.isDigit_of_mem_toDigits (by decide) (by decide) digit)
  rw [isDigit_iff, same]
  exact ⟨low, high⟩

theorem fromDecimal_decimal (n : Nat) : fromDecimal (decimal n) = n := by
  have general (cs : List Char) : (∀ c ∈ cs, c.isDigit = true) → ∀ n : Nat,
      (cs.map fun c => c.toNat.toUInt8).foldl (fun n digit => 10 * n + (digit - byte '0').toNat) n =
        Nat.ofDigitChars 10 cs n := by
    induction cs with
    | nil => exact fun _ _ => rfl
    | cons c cs ih =>
      intro digits n
      obtain ⟨low, high, same⟩ := digit_toNat (digits c List.mem_cons_self)
      have value : (c.toNat.toUInt8 - byte '0').toNat = c.toNat - 48 := by
        have zero : (byte '0').toNat = 48 := by decide
        rw [UInt8.toNat_sub_of_le _ _ (by rw [UInt8.le_iff_toNat_le]; omega), same, zero]
      rw [List.map_cons, List.foldl_cons, value, ih fun c member => digits c (List.mem_cons_of_mem _ member),
        Nat.ofDigitChars_cons]
      rfl
  have every : ∀ c ∈ Nat.toDigits 10 n, c.isDigit = true := fun c member =>
    Nat.isDigit_of_mem_toDigits (by decide) (by decide) member
  rw [decimal_eq, fromDecimal, general _ every 0, Nat.ofDigitChars_ten_toDigits]

theorem length_decimal (n : Nat) : (decimal n).length = (Nat.toDigits 10 n).length := by
  rw [decimal_eq, List.length_map]

theorem decimal_ne_nil (n : Nat) : decimal n ≠ [] := by
  rw [decimal_eq]
  simp

theorem length_decimal_of_lt {n k : Nat} (low : 10 ^ k ≤ n) (high : n < 10 ^ (k + 1)) :
    (decimal n).length = k + 1 := by
  rw [length_decimal]
  have upper := (Nat.length_toDigits_le_iff (b := 10) (by decide) (Nat.succ_pos k)).mpr high
  rcases Nat.eq_zero_or_pos k with rfl | positive
  · have := Nat.length_toDigits_pos (b := 10) (n := n)
    omega
  · have lower := mt (Nat.length_toDigits_le_iff (b := 10) (n := n) (by decide) positive).mp (by omega)
    omega

theorem fromDecimal_lt (digits : Bytes) (every : ∀ ch ∈ digits, isDigit ch = true) :
    fromDecimal digits < 10 ^ digits.length := by
  induction digits with
  | nil => decide
  | cons d rest ih =>
    have below := ih fun ch member => every ch (List.mem_cons_of_mem _ member)
    have bounds := isDigit_iff.mp (every d List.mem_cons_self)
    have digit : fromDecimal [d] ≤ 9 := by
      have zero : (byte '0').toNat = 48 := by decide
      show 10 * 0 + (d - byte '0').toNat ≤ 9
      rw [UInt8.toNat_sub_of_le _ _ (by rw [UInt8.le_iff_toNat_le]; omega)]
      omega
    have most : fromDecimal [d] * 10 ^ rest.length ≤ 9 * 10 ^ rest.length := Nat.mul_le_mul_right _ digit
    rw [← List.singleton_append, fromDecimal_append, List.length_append, List.length_singleton, Nat.pow_add, pow_one]
    omega

/-- A number is not written with a zero in front. -/
theorem decimal_leading (n : Nat) : decimal n = [byte '0'] ∨ ∀ ch ∈ (decimal n).head?, ch ≠ byte '0' := by
  have value := fromDecimal_decimal n
  have every := isDigit_decimal n
  have length := length_decimal n
  cases digits : decimal n with
  | nil => exact absurd digits (decimal_ne_nil n)
  | cons d rest =>
    rw [digits] at value every length
    by_cases zero : d = byte '0'
    · subst zero
      rw [← List.singleton_append, fromDecimal_append, show fromDecimal [byte '0'] = 0 from rfl] at value
      have below := fromDecimal_lt rest fun ch member => every ch (List.mem_cons_of_mem _ member)
      cases rest with
      | nil => exact .inl rfl
      | cons d' rest =>
        have shorter := (Nat.length_toDigits_le_iff (b := 10) (n := n) (by decide) (Nat.succ_pos _)).mpr
          (show n < 10 ^ (d' :: rest).length by omega)
        simp only [List.length_cons] at length shorter
        omega
    · refine .inr fun ch member => ?_
      obtain rfl := Option.some.inj member
      exact zero

theorem decimal_take_leading {n k : Nat} (several : 1 < (decimal n).length) (k_pos : 0 < k) :
    ∀ ch ∈ ((decimal n).take k).head?, ch ≠ byte '0' := by
  rw [List.head?_take, if_neg (by omega)]
  rcases decimal_leading n with zero | leading
  · rw [zero] at several
    exact absurd several (by decide)
  · exact leading

/-! ### The text of a number -/

/-- Digits that are zero after the point do not count. -/
theorem fromDecimal_stripZeros (whole fraction : Bytes) (power : ℤ) :
    (fromDecimal (whole ++ stripZeros fraction) : ℚ) * 10 ^ (power - (stripZeros fraction).length) =
      fromDecimal (whole ++ fraction) * 10 ^ (power - fraction.length) := by
  induction fraction using List.reverseRecOn with
  | nil => rfl
  | append_singleton rest ch ih =>
    rw [stripZeros, List.rdropWhile_concat]
    split
    · rename_i zero
      obtain rfl : ch = byte '0' := by simpa using zero
      rw [show List.rdropWhile (· = byte '0') rest = stripZeros rest from rfl, ih, ← List.append_assoc,
        fromDecimal_append (whole ++ rest), List.length_append]
      have digit : fromDecimal [byte '0'] = 0 := by decide
      have shift : power - rest.length = power - (rest.length + 1 : ℕ) + 1 := by push_cast; ring
      rw [digit, shift, zpow_add_one₀ (by norm_num)]
      simp only [List.length_singleton, pow_one, add_zero]
      push_cast
      ring
    · rfl

theorem sign_digits {digits rest : Bytes} (every : ∀ ch ∈ digits, isDigit ch = true) (some_digit : digits ≠ []) :
    sign (digits ++ rest) = (false, digits ++ rest) := by
  cases digits with
  | nil => exact absurd rfl some_digit
  | cons ch digits =>
    have bounds := isDigit_iff.mp (every ch List.mem_cons_self)
    have minus : ch ≠ byte '-' := by rintro rfl; simp [byte] at bounds
    have plus : ch ≠ byte '+' := by rintro rfl; simp [byte] at bounds
    simp [sign, minus, plus]

theorem takeWhile_digits {digits : Bytes} (rest : Bytes) (every : ∀ ch ∈ digits, isDigit ch = true)
    (stop : ∀ ch ∈ rest.head?, isDigit ch = false) :
    (digits ++ rest).takeWhile isDigit = digits ∧ (digits ++ rest).dropWhile isDigit = rest := by
  rw [List.takeWhile_append_of_pos every, List.dropWhile_append_of_pos every]
  cases rest with
  | nil => simp
  | cons ch rest => simp [stop ch rfl]

inductive ExponentText : ℤ → Bytes → Prop where
  | none : ExponentText 0 []
  | power (negative : Bool) (digits : Bytes) (every : ∀ ch ∈ digits, isDigit ch = true) (some_digit : digits ≠ []) :
      ExponentText (if negative then -(fromDecimal digits : ℤ) else fromDecimal digits)
        ([byte 'e', if negative then byte '-' else byte '+'] ++ digits)

theorem exponent_text {power : ℤ} {text : Bytes} (h : ExponentText power text) : exponent text = (power, []) := by
  cases h with
  | none => rfl
  | power negative digits every some_digit =>
    obtain ⟨taken, dropped⟩ := takeWhile_digits [] every (by simp)
    rw [List.append_nil] at taken dropped
    have signed : sign ((if negative then byte '-' else byte '+') :: digits) = (negative, digits) := by
      cases negative <;> rfl
    simp [exponent, signed, taken, dropped, some_digit]

theorem head_exponent {power : ℤ} {text : Bytes} (h : ExponentText power text) :
    ∀ ch ∈ text.head?, isDigit ch = false ∧ ch ≠ byte '.' := by
  cases h with
  | none => simp
  | power negative digits every some_digit =>
    rintro ch ⟨⟩
    decide

def Splits (text fraction tail : Bytes) : Prop :=
  text = tail ∧ fraction = [] ∧ (∀ ch ∈ tail.head?, ch ≠ byte '.') ∨
    ∃ rest, text = byte '.' :: rest ∧ rest.takeWhile isDigit = fraction ∧ rest.dropWhile isDigit = tail

theorem strtod_of_parts {num_str unsigned fraction tail : Bytes} {negative : Bool} {power : ℤ}
    (signed : sign num_str = (negative, unsigned)) (split : Splits (unsigned.dropWhile isDigit) fraction tail)
    (some_digit : unsigned.takeWhile isDigit ≠ []) (read : exponent tail = (power, [])) :
    strtod num_str = some (negative,
      (fromDecimal (unsigned.takeWhile isDigit ++ fraction) : ℚ) * 10 ^ (power - fraction.length)) := by
  unfold strtod
  rw [signed]
  dsimp only
  have present (fraction : Bytes) : unsigned.takeWhile isDigit ++ fraction ≠ [] := by simp [some_digit]
  rcases split with ⟨behind, rfl, no_point⟩ | ⟨rest, behind, rfl, rfl⟩
  · rw [behind]
    cases tail with
    | nil => simp only [read, present, ne_eq, not_false_eq_true, and_self, ↓reduceIte]
    | cons ch rest => simp only [no_point ch rfl, read, present, ne_eq, not_false_eq_true, and_self, ↓reduceIte]
  · rw [behind]
    simp only [read, present, ne_eq, not_false_eq_true, and_self, ↓reduceIte]

/-- `strtod` reads all of an optional minus sign, digits, a point with digits, and an exponent. -/
theorem strtod_text (negative : Bool) {whole fraction tail : Bytes} {power : ℤ}
    (digits : ∀ ch ∈ whole, isDigit ch = true) (some_digit : whole ≠ [])
    (decimals : ∀ ch ∈ fraction, isDigit ch = true) (read : exponent tail = (power, []))
    (head : ∀ ch ∈ tail.head?, isDigit ch = false ∧ ch ≠ byte '.') :
    strtod ((if negative then [byte '-'] else []) ++ (whole ++ (point fraction ++ tail))) =
      some (negative, (fromDecimal (whole ++ fraction) : ℚ) * 10 ^ (power - fraction.length)) := by
  have signed : sign ((if negative then [byte '-'] else []) ++ (whole ++ (point fraction ++ tail))) =
      (negative, whole ++ (point fraction ++ tail)) := by
    cases negative with
    | false =>
      rw [if_neg Bool.false_ne_true, List.nil_append]
      exact sign_digits digits some_digit
    | true => rfl
  have stop : ∀ ch ∈ (point fraction ++ tail).head?, isDigit ch = false := by
    cases fraction with
    | nil => exact fun ch member => (head ch member).1
    | cons d rest =>
      rintro ch ⟨⟩
      decide
  obtain ⟨taken, dropped⟩ := takeWhile_digits _ digits stop
  obtain ⟨taken', dropped'⟩ := takeWhile_digits _ decimals fun ch member => (head ch member).1
  have split : Splits ((whole ++ (point fraction ++ tail)).dropWhile isDigit) fraction tail := by
    rw [dropped]
    cases fraction with
    | nil => exact .inl ⟨rfl, rfl, fun ch member => (head ch member).2⟩
    | cons d rest => exact .inr ⟨d :: rest ++ tail, rfl, taken', dropped'⟩
  rw [strtod_of_parts signed split (by rw [taken]; exact some_digit) read, taken]

structure Spells (text : Bytes) (magnitude : ℚ) (whole fraction tail : Bytes) (power : ℤ) : Prop where
  text : text = whole ++ (point fraction ++ tail)
  digits : ∀ ch ∈ whole, isDigit ch = true
  some_digit : whole ≠ []
  leading : whole = [byte '0'] ∨ ∀ ch ∈ whole.head?, ch ≠ byte '0'
  decimals : ∀ ch ∈ fraction, isDigit ch = true
  tail : ExponentText power tail
  magnitude : magnitude = fromDecimal (whole ++ fraction) * 10 ^ (power - fraction.length)

theorem strtod_of_spells (negative : Bool) {text whole fraction tail : Bytes} {magnitude : ℚ} {power : ℤ}
    (h : Spells text magnitude whole fraction tail power) :
    strtod ((if negative then [byte '-'] else []) ++ text) = some (negative, magnitude) := by
  rw [h.text, strtod_text negative h.digits h.some_digit h.decimals (exponent_text h.tail) (head_exponent h.tail),
    h.magnitude]

theorem spells_decimal (n : Nat) : Spells (decimal n) n (decimal n) [] [] 0 where
  text := by simp [point]
  digits := isDigit_decimal n
  some_digit := decimal_ne_nil n
  leading := decimal_leading n
  decimals := by simp
  tail := .none
  magnitude := by simp [fromDecimal_decimal]

theorem isDigit_stripZeros {digits : Bytes} (every : ∀ ch ∈ digits, isDigit ch = true) :
    ∀ ch ∈ stripZeros digits, isDigit ch = true :=
  fun ch member => every ch ((List.rdropWhile_prefix _ _).subset member)

theorem isDigit_replicate (n : Nat) : ∀ ch ∈ List.replicate n (byte '0'), isDigit ch = true := by
  intro ch member
  rw [List.eq_of_mem_replicate member]
  decide

theorem exponentText_padLeft (power : ℤ) :
    ExponentText power ([byte 'e', if power < 0 then byte '-' else byte '+'] ++
      padLeft 2 (decimal power.natAbs)) := by
  have every : ∀ ch ∈ padLeft 2 (decimal power.natAbs), isDigit ch = true := by
    intro ch member
    rcases List.mem_append.mp member with zero | digit
    · exact isDigit_replicate _ ch zero
    · exact isDigit_decimal _ ch digit
  have value : fromDecimal (padLeft 2 (decimal power.natAbs)) = power.natAbs := by
    rw [padLeft, fromDecimal_append, fromDecimal_zeros, fromDecimal_decimal]
    omega
  have some_digit : padLeft 2 (decimal power.natAbs) ≠ [] := by simp [padLeft, decimal_ne_nil]
  have text := ExponentText.power (decide (power < 0)) _ every some_digit
  rw [value] at text
  by_cases negative : power < 0
  · have size : -(power.natAbs : ℤ) = power := by omega
    simpa only [negative, decide_true, ↓reduceIte, size] using text
  · have size : (power.natAbs : ℤ) = power := by omega
    simpa only [negative, decide_false, Bool.false_eq_true, ↓reduceIte, size] using text

section Layout

variable {n : Nat} {power : ℤ}

theorem spells_scientific (length : (decimal n).length = 17) :
    Spells ((decimal n).take 1 ++ point (stripZeros ((decimal n).drop 1)) ++
        [byte 'e', if power < 0 then byte '-' else byte '+'] ++ padLeft 2 (decimal power.natAbs))
      (n * 10 ^ (power - 16)) ((decimal n).take 1) (stripZeros ((decimal n).drop 1))
      ([byte 'e', if power < 0 then byte '-' else byte '+'] ++ padLeft 2 (decimal power.natAbs)) power where
  text := by simp only [List.append_assoc]
  digits ch member := isDigit_decimal n ch (List.mem_of_mem_take member)
  some_digit := by
    intro none
    have := congrArg List.length none
    simp [length] at this
  leading := .inr (decimal_take_leading (by omega) (Nat.succ_pos _))
  decimals := isDigit_stripZeros fun ch member => isDigit_decimal n ch (List.mem_of_mem_drop member)
  tail := exponentText_padLeft power
  magnitude := by
    rw [fromDecimal_stripZeros, List.take_append_drop, fromDecimal_decimal, List.length_drop, length]
    rfl

theorem spells_small (length : (decimal n).length = 17) (small : power < 0) :
    Spells ([byte '0'] ++ point (stripZeros (List.replicate (-power - 1).toNat (byte '0') ++ decimal n)))
      (n * 10 ^ (power - 16)) [byte '0']
      (stripZeros (List.replicate (-power - 1).toNat (byte '0') ++ decimal n)) [] 0 where
  text := by simp
  digits := by decide +kernel
  some_digit := by simp
  leading := .inl rfl
  decimals := by
    refine isDigit_stripZeros fun ch member => ?_
    rcases List.mem_append.mp member with zero | digit
    · exact isDigit_replicate _ ch zero
    · exact isDigit_decimal _ ch digit
  tail := .none
  magnitude := by
    have zero : fromDecimal [byte '0'] = 0 := by decide
    have places : (0 : ℤ) - ((-power - 1).toNat + 17 : ℕ) = power - 16 := by omega
    rw [fromDecimal_stripZeros, fromDecimal_append, fromDecimal_append, zero, fromDecimal_zeros,
      fromDecimal_decimal, List.length_append, List.length_replicate, length, places]
    simp

theorem spells_plain (length : (decimal n).length = 17) (large : 0 ≤ power) (fits : power < 17) :
    Spells ((decimal n).take (power.toNat + 1) ++ point (stripZeros ((decimal n).drop (power.toNat + 1))))
      (n * 10 ^ (power - 16)) ((decimal n).take (power.toNat + 1))
      (stripZeros ((decimal n).drop (power.toNat + 1))) [] 0 where
  text := by simp
  digits ch member := isDigit_decimal n ch (List.mem_of_mem_take member)
  some_digit := by
    intro none
    have := congrArg List.length none
    simp [length] at this
  leading := .inr (decimal_take_leading (by omega) (Nat.succ_pos _))
  decimals := isDigit_stripZeros fun ch member => isDigit_decimal n ch (List.mem_of_mem_drop member)
  tail := .none
  magnitude := by
    have places : (0 : ℤ) - (17 - (power.toNat + 1) : ℕ) = power - 16 := by omega
    rw [fromDecimal_stripZeros, List.take_append_drop, fromDecimal_decimal, List.length_drop, length, places]

end Layout

/-! ### Rounding -/

theorem floorLog_spec (base : Nat) (one_lt : 1 < base) {q : ℚ} (positive : 0 < q) :
    (base : ℚ) ^ floorLog base q ≤ q ∧ q < (base : ℚ) ^ (floorLog base q + 1) := by
  have base_pos : (0 : ℚ) < base := by exact_mod_cast Nat.zero_lt_of_lt one_lt
  have num_pos : 0 < q.num := Rat.num_pos.mpr positive
  have product : q * q.den = q.num.natAbs := by
    have cast : ((q.num.natAbs : ℤ) : ℚ) = q.num := by rw [Int.natAbs_of_nonneg num_pos.le]
    rw [Rat.mul_den_eq_num, ← cast, Int.cast_natCast]
  have num_low : (base : ℚ) ^ Nat.log base q.num.natAbs ≤ q.num.natAbs := by
    exact_mod_cast Nat.pow_log_le_self base (by omega)
  have num_high : (q.num.natAbs : ℚ) < (base : ℚ) ^ (Nat.log base q.num.natAbs + 1) := by
    exact_mod_cast Nat.lt_pow_succ_log_self one_lt _
  have den_low : (base : ℚ) ^ Nat.log base q.den ≤ q.den := by
    exact_mod_cast Nat.pow_log_le_self base q.den_nz
  have den_high : (q.den : ℚ) < (base : ℚ) ^ (Nat.log base q.den + 1) := by
    exact_mod_cast Nat.lt_pow_succ_log_self one_lt _
  have high : q < (base : ℚ) ^ ((Nat.log base q.num.natAbs - Nat.log base q.den : ℤ) + 1) := by
    have exponents : ((Nat.log base q.num.natAbs - Nat.log base q.den : ℤ) + 1) =
        ((Nat.log base q.num.natAbs + 1 : ℕ) : ℤ) - (Nat.log base q.den : ℕ) := by push_cast; ring
    rw [exponents, zpow_sub₀ base_pos.ne', zpow_natCast, zpow_natCast, lt_div_iff₀ (pow_pos base_pos _)]
    calc q * (base : ℚ) ^ Nat.log base q.den ≤ q * q.den := mul_le_mul_of_nonneg_left den_low positive.le
      _ = q.num.natAbs := product
      _ < _ := num_high
  have low : (base : ℚ) ^ ((Nat.log base q.num.natAbs - Nat.log base q.den : ℤ) - 1) ≤ q := by
    have exponents : ((Nat.log base q.num.natAbs - Nat.log base q.den : ℤ) - 1) =
        ((Nat.log base q.num.natAbs : ℕ) : ℤ) - ((Nat.log base q.den + 1 : ℕ) : ℤ) := by push_cast; ring
    rw [exponents, zpow_sub₀ base_pos.ne', zpow_natCast, zpow_natCast, div_le_iff₀ (pow_pos base_pos _)]
    calc (base : ℚ) ^ Nat.log base q.num.natAbs ≤ q.num.natAbs := num_low
      _ = q * q.den := product.symm
      _ ≤ _ := mul_le_mul_of_nonneg_left den_high.le positive.le
  unfold floorLog
  dsimp only
  split
  · rename_i fits
    exact ⟨fits, high⟩
  · rename_i larger
    rw [sub_add_cancel]
    exact ⟨low, lt_of_not_ge larger⟩

theorem roundEven_near (q : ℚ) : |q - roundEven q| ≤ 1 / 2 := by
  have low := Int.floor_le q
  have high := Int.lt_floor_add_one q
  unfold roundEven
  split
  · rename_i down
    have half : q - ⌊q⌋ ≤ 1 / 2 := by
      rcases down with less | ⟨tie, -⟩
      · exact less.le
      · exact tie.le
    rw [abs_le]
    constructor <;> linarith
  · rename_i up
    have half : 1 / 2 ≤ q - ⌊q⌋ := not_lt.mp fun less => up (.inl less)
    push_cast
    rw [abs_le]
    constructor <;> linarith

/-! ### The nearest double -/

def binary64 : FloatingPoint.Format := ⟨2, 53, -1074, by norm_num⟩

theorem representable (n : Double) : binary64.Representable n.magnitude := by
  obtain ⟨mantissa, exponent, positive, small, least, -, magnitude⟩ := n.binary64
  exact ⟨mantissa, exponent, by rwa [abs_of_nonneg positive], least, magnitude⟩

theorem magnitude_nonneg (n : Double) : 0 ≤ n.magnitude := by
  obtain ⟨mantissa, exponent, positive, -, -, -, magnitude⟩ := n.binary64
  have unit : (0 : ℚ) < 2 ^ exponent := zpow_pos (by norm_num) _
  rw [magnitude]
  exact mul_nonneg (by exact_mod_cast positive) unit.le

theorem magnitude_lt (n : Double) : n.magnitude < 2 ^ (1024 : ℤ) := by
  obtain ⟨mantissa, exponent, -, small, -, most, magnitude⟩ := n.binary64
  have unit : (0 : ℚ) < 2 ^ exponent := zpow_pos (by norm_num) _
  have bound : (mantissa : ℚ) < 2 ^ (53 : ℤ) := by exact_mod_cast small
  rw [magnitude]
  calc (mantissa : ℚ) * 2 ^ exponent < 2 ^ (53 : ℤ) * 2 ^ exponent := mul_lt_mul_of_pos_right bound unit
    _ = 2 ^ (53 + exponent) := (zpow_add₀ (by norm_num) _ _).symm
    _ ≤ 2 ^ (1024 : ℤ) := zpow_le_zpow_right₀ (by norm_num) (by omega)

theorem lastPlace {z : ℚ} (positive : 0 < z) :
    binary64.LastPlace z (max (floorLog 2 z - 52) (-1074)) := by
  obtain ⟨low, high⟩ := floorLog_spec 2 (by norm_num) positive
  refine ⟨le_max_right _ _, ?_, ?_⟩
  · rcases le_total (floorLog 2 z - 52) (-1074) with least | normal
    · exact .inl (max_eq_right least)
    · refine .inr ?_
      rw [max_eq_left normal]
      have exponents : floorLog 2 z - 52 + (53 : ℕ) - 1 = floorLog 2 z := by push_cast; ring
      show ((2 : ℕ) : ℚ) ^ (floorLog 2 z - 52 + (53 : ℕ) - 1) ≤ z
      rw [exponents]
      exact low
  · refine lt_of_lt_of_le high (zpow_le_zpow_right₀ (by norm_num [binary64]) ?_)
    have larger := le_max_left (floorLog 2 z - 52) (-1074)
    show floorLog 2 z + 1 ≤ max (floorLog 2 z - 52) (-1074) + (53 : ℕ)
    push_cast
    omega

theorem zpow_two_lt {a b : ℤ} (less : (2 : ℚ) ^ a < 2 ^ b) : a < b :=
  (zpow_lt_zpow_iff_right₀ (by norm_num)).mp less

/-- The value of `nearest`, from its digits after a carry. -/
theorem nearest_eq {negative : Bool} {y : ℚ} {rounded exponent digits shifted : ℤ}
    (place : max (floorLog 2 y - 52) (-1074) = exponent) (round : roundEven (y / 2 ^ exponent) = rounded)
    (carried : (if rounded = 2 ^ 53 then ((2 : ℤ) ^ 52, exponent + 1) else (rounded, exponent)) = (digits, shifted))
    (bounds : 0 ≤ digits ∧ digits < 2 ^ 53 ∧ -1074 ≤ shifted ∧ shifted ≤ 971) :
    ∃ n, nearest (negative, y) = some n ∧ n.negative = negative ∧ n.magnitude = digits * 2 ^ shifted := by
  subst place round
  unfold nearest
  dsimp only
  simp only [carried]
  exact ⟨_, dif_pos bounds, rfl, rfl⟩

theorem nearest_of_digits {n : Double} {y : ℚ} {k exponent : ℤ}
    (place : max (floorLog 2 y - 52) (-1074) = exponent) (rounded : roundEven (y / 2 ^ exponent) = k)
    (magnitude : n.magnitude = k * 2 ^ exponent) (small : k ≤ 2 ^ 53) (finite : exponent ≤ 971) :
    nearest (n.negative, y) = some n := by
  have unit : (0 : ℚ) < 2 ^ exponent := zpow_pos (by norm_num) _
  have positive : 0 ≤ k := by
    have : 0 ≤ (k : ℚ) * 2 ^ exponent := magnitude ▸ magnitude_nonneg n
    exact_mod_cast nonneg_of_mul_nonneg_left this unit
  have least : -1074 ≤ exponent := place ▸ le_max_right _ _
  -- `2 ^ 53` does not fit, and is carried.
  obtain ⟨digits, shifted, carried, bounds, same⟩ : ∃ digits shifted : ℤ,
      (if k = 2 ^ 53 then ((2 : ℤ) ^ 52, exponent + 1) else (k, exponent)) = (digits, shifted) ∧
      (0 ≤ digits ∧ digits < 2 ^ 53 ∧ -1074 ≤ shifted ∧ shifted ≤ 971) ∧ n.magnitude = digits * 2 ^ shifted := by
    by_cases full : k = 2 ^ 53
    · refine ⟨2 ^ 52, exponent + 1, if_pos full, ⟨by norm_num, by norm_num, by omega, ?_⟩, ?_⟩
      · have bound : (2 : ℚ) ^ (53 + exponent) < 2 ^ (1024 : ℤ) := by
          have below := magnitude_lt n
          rw [magnitude, full] at below
          rw [zpow_add₀ (by norm_num)]
          exact_mod_cast below
        have := zpow_two_lt bound
        omega
      · rw [magnitude, full, zpow_add_one₀ (by norm_num)]
        push_cast
        ring
    · exact ⟨k, exponent, if_neg full, ⟨positive, by omega, least, finite⟩, magnitude⟩
  obtain ⟨m, found, signed, sized⟩ := nearest_eq place rounded carried bounds
  rw [found]
  exact congrArg some (Double.ext signed (sized.trans same.symm))

/-- A magnitude within half a unit of the 17th digit of a `double` is read as that `double`. -/
theorem nearest_of_near {n : Double} {y : ℚ} (near : |y - n.magnitude| ≤ n.magnitude / (10 ^ 16 : ℕ) / 2) :
    nearest (n.negative, y) = some n := by
  rcases (magnitude_nonneg n).eq_or_lt with zero | positive
  · have none : y = 0 := by simpa [← zero] using near
    refine nearest_of_digits rfl (k := 0) ?_ (by simp [← zero]) (by norm_num) ?_
    · simp [none, roundEven]
    · rw [none]
      decide +kernel
  have error : n.magnitude / (10 ^ 16 : ℕ) / 2 < n.magnitude := by
    push_cast
    linarith
  have present : 0 < y := by
    have := (abs_lt.mp (lt_of_le_of_lt near error)).1
    linarith
  have place := lastPlace present
  generalize here : max (floorLog 2 y - 52) (-1074) = exponent at place
  obtain ⟨k, whole, half⟩ :=
    FloatingPoint.recovers (representable n) place (by norm_num [binary64]) near
  have rounded : roundEven (y / 2 ^ exponent) = k :=
    FloatingPoint.nearest_unique (roundEven_near _) half
  have unit : (0 : ℚ) < 2 ^ exponent := zpow_pos (by norm_num) _
  have whole : n.magnitude = k * 2 ^ exponent := whole
  have half : abs (y / 2 ^ exponent - k) < 1 / 2 := half
  refine nearest_of_digits here rounded whole ?_ ?_
  · have below : y / 2 ^ exponent < 2 ^ (53 : ℤ) := by
      rw [div_lt_iff₀ unit, ← zpow_add₀ (by norm_num), add_comm]
      exact place.below
    have : (k : ℚ) < 2 ^ 53 + 1 := by
      have := (abs_lt.mp half).1
      norm_num at below ⊢
      linarith
    have : k < 2 ^ 53 + 1 := by exact_mod_cast this
    omega
  · rcases place.normal with least | normal
    · rw [least]
      decide
    · have above : 2 ^ (52 : ℤ) ≤ y / 2 ^ exponent := by
        rw [le_div_iff₀ unit, ← zpow_add₀ (by norm_num)]
        refine le_trans (zpow_le_zpow_right₀ (by norm_num) ?_) normal
        show 52 + exponent ≤ exponent + (53 : ℕ) - 1
        push_cast
        omega
      have many : (2 : ℚ) ^ (52 : ℤ) ≤ k := by
        have : (2 : ℚ) ^ 52 - 1 < k := by
          have := (abs_lt.mp half).2
          norm_num at above ⊢
          linarith
        have : (2 : ℤ) ^ 52 - 1 < k := by exact_mod_cast this
        have : (2 : ℤ) ^ 52 ≤ k := by omega
        exact_mod_cast this
      have bound : (2 : ℚ) ^ (52 + exponent) < 2 ^ (1024 : ℤ) := by
        refine lt_of_le_of_lt ?_ (magnitude_lt n)
        rw [zpow_add₀ (by norm_num), whole]
        exact mul_le_mul_of_nonneg_right many unit.le
      have := zpow_two_lt bound
      omega

/-! ### There and back -/

theorem roundEven_bounds {q : ℚ} {low high : ℤ} (above : (low : ℚ) ≤ q) (below : q < high) :
    low ≤ roundEven q ∧ roundEven q ≤ high := by
  have near := abs_le.mp (roundEven_near q)
  constructor
  · have : (low : ℚ) < roundEven q + 1 := by linarith
    have : low < roundEven q + 1 := by exact_mod_cast this
    omega
  · have : (roundEven q : ℚ) < high + 1 := by linarith
    have : roundEven q < high + 1 := by exact_mod_cast this
    omega

/-- `%.17g` spells the number rounded at its 17th digit. -/
theorem g17_spells {q : ℚ} (positive : 0 < q) : ∃ (magnitude : ℚ) (whole fraction tail : Bytes) (power : ℤ),
    Spells (g17 q) magnitude whole fraction tail power ∧
      magnitude = roundEven (q / 10 ^ (floorLog 10 q - 16)) * 10 ^ (floorLog 10 q - 16) := by
  obtain ⟨low, high⟩ := floorLog_spec 10 (by norm_num) positive
  have unit : (0 : ℚ) < 10 ^ (floorLog 10 q - 16) := zpow_pos (by norm_num) _
  have above : (((10 : ℤ) ^ 16 : ℤ) : ℚ) ≤ q / 10 ^ (floorLog 10 q - 16) := by
    rw [le_div_iff₀ unit]
    have split : ((10 : ℕ) : ℚ) ^ floorLog 10 q = 10 ^ (16 : ℕ) * 10 ^ (floorLog 10 q - 16) := by
      rw [← zpow_natCast, ← zpow_add₀ (by norm_num)]
      norm_num
    rw [split] at low
    exact_mod_cast low
  have below : q / 10 ^ (floorLog 10 q - 16) < (((10 : ℤ) ^ 17 : ℤ) : ℚ) := by
    rw [div_lt_iff₀ unit]
    have split : ((10 : ℕ) : ℚ) ^ (floorLog 10 q + 1) = 10 ^ (17 : ℕ) * 10 ^ (floorLog 10 q - 16) := by
      rw [← zpow_natCast, ← zpow_add₀ (by norm_num)]
      congr 1
      push_cast
      ring
    rw [split] at high
    exact_mod_cast high
  obtain ⟨least, most⟩ := roundEven_bounds above below
  obtain ⟨n, rounded⟩ := Int.eq_ofNat_of_zero_le (le_trans (by norm_num) least)
  unfold g17
  dsimp only
  rw [rounded] at least most ⊢
  rw [Int.toNat_natCast]
  -- The digits after a carry.
  obtain ⟨digits, power, carried, size, same⟩ : ∃ (digits : Nat) (power : ℤ),
      (if n = 10 ^ 17 then (10 ^ 16, floorLog 10 q + 1) else (n, floorLog 10 q)) = (digits, power) ∧
      (10 ^ 16 ≤ digits ∧ digits < 10 ^ 17) ∧
      (digits : ℚ) * 10 ^ (power - 16) = n * 10 ^ (floorLog 10 q - 16) := by
    by_cases full : n = 10 ^ 17
    · refine ⟨10 ^ 16, floorLog 10 q + 1, if_pos full, by norm_num, ?_⟩
      rw [full, show floorLog 10 q + 1 - 16 = floorLog 10 q - 16 + 1 by ring, zpow_add_one₀ (by norm_num)]
      push_cast
      ring
    · exact ⟨n, floorLog 10 q, if_neg full, by omega, rfl⟩
  have length := length_decimal_of_lt size.1 size.2
  rw [carried]
  have value : ((n : ℤ) : ℚ) * 10 ^ (floorLog 10 q - 16) = digits * 10 ^ (power - 16) := by
    rw [same, Int.cast_natCast]
  rw [value]
  dsimp only
  by_cases scientific : power < -4 ∨ 17 ≤ power
  · rw [if_pos scientific]
    exact ⟨_, _, _, _, _, spells_scientific length, rfl⟩
  · rw [if_neg scientific]
    by_cases small : power < 0
    · rw [if_pos small]
      exact ⟨_, _, _, _, _, spells_small length small, rfl⟩
    · rw [if_neg small]
      exact ⟨_, _, _, _, _, spells_plain length (by omega) (by omega), rfl⟩

theorem g17_near {q : ℚ} (positive : 0 < q) :
    |(roundEven (q / 10 ^ (floorLog 10 q - 16)) * 10 ^ (floorLog 10 q - 16) : ℚ) - q| ≤ q / (10 ^ 16 : ℕ) / 2 := by
  obtain ⟨low, -⟩ := floorLog_spec 10 (by norm_num) positive
  generalize floorLog 10 q = power at low ⊢
  have unit : (0 : ℚ) < 10 ^ (power - 16) := zpow_pos (by norm_num) _
  have near := roundEven_near (q / 10 ^ (power - 16))
  generalize roundEven (q / 10 ^ (power - 16)) = rounded at near ⊢
  have scaled : (rounded * 10 ^ (power - 16) : ℚ) - q =
      -(q / 10 ^ (power - 16) - rounded) * 10 ^ (power - 16) := by
    rw [neg_mul, sub_mul, div_mul_cancel₀ _ unit.ne']
    ring
  have digit : (10 : ℚ) ^ (power - 16) ≤ q / (10 ^ 16 : ℕ) := by
    rw [zpow_sub₀ (by norm_num), Nat.cast_pow, Nat.cast_ofNat]
    exact div_le_div_of_nonneg_right low (by norm_num)
  rw [scaled, abs_mul, abs_neg, abs_of_pos unit]
  calc _ ≤ 1 / 2 * (10 : ℚ) ^ (power - 16) := mul_le_mul_of_nonneg_right near unit.le
    _ ≤ q / (10 ^ 16 : ℕ) / 2 := by linarith

/-- The text of a `double` without its sign, and what it spells. -/
theorem printNumber_spells (n : Double) : ∃ (text : Bytes) (magnitude : ℚ) (whole fraction tail : Bytes) (power : ℤ),
    printNumber n = (if n.negative then [byte '-'] else []) ++ text ∧
      Spells text magnitude whole fraction tail power ∧
      |magnitude - n.magnitude| ≤ n.magnitude / (10 ^ 16 : ℕ) / 2 := by
  have nonneg := magnitude_nonneg n
  unfold printNumber
  by_cases integral : n.magnitude < 2 ^ 53 ∧ n.magnitude.den = 1
  · have value : ((n.magnitude.num.natAbs : ℕ) : ℚ) = n.magnitude := by
      rw [Nat.cast_natAbs, abs_of_nonneg (Rat.num_nonneg.mpr nonneg), Rat.coe_int_num_of_den_eq_one integral.2]
    rw [if_pos integral]
    refine ⟨_, _, _, _, _, _, rfl, spells_decimal _, ?_⟩
    rw [value, sub_self, abs_zero]
    positivity
  · have nonzero : n.magnitude ≠ 0 := by
      intro zero
      exact integral (by simp [zero])
    have positive : 0 < n.magnitude := lt_of_le_of_ne nonneg nonzero.symm
    obtain ⟨magnitude, whole, fraction, tail, power, spells, value⟩ := g17_spells positive
    rw [if_neg integral]
    refine ⟨_, magnitude, whole, fraction, tail, power, rfl, spells, ?_⟩
    rw [value]
    exact g17_near positive

/-- `strtod` reads all of a printed number, and the nearest `double` is the number. -/
theorem nearest_strtod_printNumber (n : Double) : (strtod (printNumber n)).bind nearest = some n := by
  obtain ⟨text, magnitude, whole, fraction, tail, power, printed, spells, near⟩ := printNumber_spells n
  rw [printed, strtod_of_spells n.negative spells, Option.bind_some]
  exact nearest_of_near near

/-- Every number is read as it was printed, and no two numbers are printed alike. -/
theorem numbers_are_read_back (n m : Double) :
    (strtod (printNumber n)).bind nearest = some n ∧ (printNumber n = printNumber m ↔ n = m) := by
  refine ⟨nearest_strtod_printNumber n, fun same => ?_, congrArg printNumber⟩
  have read := nearest_strtod_printNumber n
  rw [same, nearest_strtod_printNumber m] at read
  exact (Option.some.inj read).symm

example : ((strtod (ascii "-0")).bind nearest).map printNumber = some (ascii "-0") := by decide +kernel

end Rosbridge.picojson
