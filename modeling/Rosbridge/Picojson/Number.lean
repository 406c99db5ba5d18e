import Mathlib.Data.List.DropRight
import Mathlib.Data.Nat.Log
import Mathlib.Data.Rat.Floor
import Rosbridge.Json

/-!
# Numbers as text

`strtod` and the two formats that picojson gives to `snprintf`, in the "C" locale: the nearest
`double` with ties to even, and the decimal that is nearest to it. The sign stays apart, also that of a zero.
-/

namespace Rosbridge.picojson

def byte (c : Char) : UInt8 := c.toNat.toUInt8

def isDigit (ch : UInt8) : Bool := byte '0' ≤ ch && ch ≤ byte '9'

def decimal (n : Nat) : Bytes := ascii (toString n)

def fromDecimal (digits : Bytes) : Nat :=
  digits.foldl (fun n digit => 10 * n + (digit - byte '0').toNat) 0

def roundEven (q : ℚ) : ℤ :=
  if q - ⌊q⌋ < 1 / 2 ∨ (q - ⌊q⌋ = 1 / 2 ∧ ⌊q⌋ % 2 = 0) then ⌊q⌋ else ⌊q⌋ + 1

/-- `⌊log q⌋` for a positive `q`, from the logarithms of the numerator and the denominator. -/
def floorLog (base : Nat) (q : ℚ) : ℤ :=
  let guess : ℤ := Nat.log base q.num.natAbs - Nat.log base q.den
  if (base : ℚ) ^ guess ≤ q then guess else guess - 1

/-- The `double` with that sign whose magnitude is nearest; none when it is infinite. -/
def nearest : Bool × ℚ → Option Double
  | (negative, magnitude) =>
    let exponent := max (floorLog 2 magnitude - 52) (-1074)
    let rounded := roundEven (magnitude / 2 ^ exponent)
    let carried := if rounded = 2 ^ 53 then (2 ^ 52, exponent + 1) else (rounded, exponent)
    if bounds : 0 ≤ carried.1 ∧ carried.1 < 2 ^ 53 ∧ -1074 ≤ carried.2 ∧ carried.2 ≤ 971 then
      some ⟨negative, carried.1 * 2 ^ carried.2, carried.1, carried.2, bounds.1, bounds.2.1, bounds.2.2.1,
        bounds.2.2.2, rfl⟩
    else none

def sign : Bytes → Bool × Bytes
  | [] => (false, [])
  | ch :: rest =>
    if ch = byte '-' then (true, rest) else if ch = byte '+' then (false, rest) else (false, ch :: rest)

/-- Nothing is read unless a digit follows. -/
def exponent : Bytes → ℤ × Bytes
  | [] => (0, [])
  | ch :: rest =>
    let (negative, digits) := sign rest
    if (ch = byte 'e' ∨ ch = byte 'E') ∧ digits.takeWhile isDigit ≠ [] then
      let n : ℤ := fromDecimal (digits.takeWhile isDigit)
      (if negative then -n else n, digits.dropWhile isDigit)
    else (0, ch :: rest)

/-- The sign and the magnitude. -/
def strtod (num_str : Bytes) : Option (Bool × ℚ) :=
  let (negative, unsigned) := sign num_str
  let whole := unsigned.takeWhile isDigit
  let (fraction, tail) :=
    match unsigned.dropWhile isDigit with
    | [] => ([], [])
    | ch :: rest =>
      if ch = byte '.' then (rest.takeWhile isDigit, rest.dropWhile isDigit) else ([], ch :: rest)
  let (power, rest) := exponent tail
  if whole ++ fraction ≠ [] ∧ rest = [] then
    some (negative, fromDecimal (whole ++ fraction) * 10 ^ (power - fraction.length))
  else none

def padLeft (width : Nat) (digits : Bytes) : Bytes :=
  List.replicate (width - digits.length) (byte '0') ++ digits

def stripZeros (digits : Bytes) : Bytes := digits.rdropWhile (· = byte '0')

def point : Bytes → Bytes
  | [] => []
  | digits => byte '.' :: digits

def g17 (q : ℚ) : Bytes :=
  let power := floorLog 10 q
  let rounded := (roundEven (q / 10 ^ (power - 16))).toNat
  let carried := if rounded = 10 ^ 17 then (10 ^ 16, power + 1) else (rounded, power)
  let digits := decimal carried.1
  if carried.2 < -4 ∨ 17 ≤ carried.2 then
    digits.take 1 ++ point (stripZeros (digits.drop 1)) ++
      [byte 'e', if carried.2 < 0 then byte '-' else byte '+'] ++ padLeft 2 (decimal carried.2.natAbs)
  else if carried.2 < 0 then
    [byte '0'] ++ point (stripZeros (List.replicate (-carried.2 - 1).toNat (byte '0') ++ digits))
  else
    let whole := carried.2.toNat + 1
    digits.take whole ++ point (stripZeros (digits.drop whole))

/-- `fabs(n) < 2^53 && modf(n, &tmp) == 0 ? "%.f" : "%.17g"` -/
def printNumber (n : Double) : Bytes :=
  (if n.negative then [byte '-'] else []) ++
    if n.magnitude < 2 ^ 53 ∧ n.magnitude.den = 1 then decimal n.magnitude.num.natAbs else g17 n.magnitude

end Rosbridge.picojson
