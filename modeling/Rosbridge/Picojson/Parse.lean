import Rosbridge.Picojson.Number

/-!
# `picojson::parse`

The parser writes into the value it is given as it reads, so a value is there also when it fails,
with what was read before the error. A number that is not finite throws.
-/

namespace Rosbridge.picojson

/-- `input<Iter>`, from `cur_` to `end_`. -/
structure Input where
  rest : Bytes
  consumed : Bool := false
  line : Nat := 1

abbrev Reader (α : Type) := StateT Input (Except Exn) α

def getc : Reader (Option UInt8) := do
  let s ← get
  let (rest, line) :=
    match s.consumed, s.rest with
    | true, ch :: rest => (rest, if ch = byte '\n' then s.line + 1 else s.line)
    | _, rest => (rest, s.line)
  set ({ rest := rest, consumed := !rest.isEmpty, line := line } : Input)
  return rest.head?

def ungetc : Reader Unit := modify fun s => { s with consumed := false }

def isSpace (ch : UInt8) : Bool := ch ∈ [byte ' ', byte '\t', byte '\n', byte '\r']

/-- The loops read a character in each round, so the length of the text bounds them. -/
def skip_ws_loop : Nat → Reader Unit
  | 0 => return
  | fuel + 1 => do
    match ← getc with
    | some ch => if isSpace ch then skip_ws_loop fuel else ungetc
    | none => ungetc

def remaining : Reader Nat := return (← get).rest.length + 1

def skip_ws : Reader Unit := do skip_ws_loop (← remaining)

def expect (expected : Char) : Reader Bool := do
  skip_ws
  if (← getc) = some (byte expected) then return true
  ungetc
  return false

def matches_ : List Char → Reader Bool
  | [] => return true
  | p :: pattern => do
    if (← getc) = some (byte p) then matches_ pattern
    else
      ungetc
      return false

def hexDigit (ch : UInt8) : Option Nat :=
  if byte '0' ≤ ch ∧ ch ≤ byte '9' then some (ch - byte '0').toNat
  else if byte 'A' ≤ ch ∧ ch ≤ byte 'F' then some (ch - byte 'A' + 10).toNat
  else if byte 'a' ≤ ch ∧ ch ≤ byte 'f' then some (ch - byte 'a' + 10).toNat
  else none

def parse_quadhex : (digits : Nat) → (uni_ch : Nat) → Reader (Option Nat)
  | 0, uni_ch => return some uni_ch
  | digits + 1, uni_ch => do
    match ← getc with
    | none => return none
    | some ch =>
      match hexDigit ch with
      | some hex => parse_quadhex digits (uni_ch * 16 + hex)
      | none =>
        ungetc
        return none

def utf8 (uni_ch : Nat) : Bytes :=
  let low (shift : Nat) : UInt8 := (0x80 + (uni_ch >>> shift) % 0x40).toUInt8
  if uni_ch < 0x80 then [uni_ch.toUInt8]
  else if uni_ch < 0x800 then [(0xc0 + uni_ch >>> 6).toUInt8, low 0]
  else if uni_ch < 0x10000 then [(0xe0 + uni_ch >>> 12).toUInt8, low 6, low 0]
  else [(0xf0 + uni_ch >>> 18).toUInt8, low 12, low 6, low 0]

def parse_codepoint : Reader (Option Bytes) := do
  let some first ← parse_quadhex 4 0 | return none
  if first < 0xd800 ∨ 0xdfff < first then return some (utf8 first)
  if 0xdc00 ≤ first then return none
  if (← getc) ≠ some (byte '\\') then
    ungetc
    return none
  if (← getc) ≠ some (byte 'u') then
    ungetc
    return none
  let some second ← parse_quadhex 4 0 | return none
  if second < 0xdc00 ∨ 0xdfff < second then return none
  return some (utf8 ((first - 0xd800) * 0x400 + (second - 0xdc00) + 0x10000))

def unescape (ch : UInt8) : Option UInt8 :=
  if ch = byte '"' ∨ ch = byte '\\' ∨ ch = byte '/' then some ch
  else if ch = byte 'b' then some 8
  else if ch = byte 'f' then some 12
  else if ch = byte 'n' then some 10
  else if ch = byte 'r' then some 13
  else if ch = byte 't' then some 9
  else none

def parse_string_loop : Nat → Bytes → Reader (Bool × Bytes)
  | 0, out => return (false, out)
  | fuel + 1, out => do
    match ← getc with
    | none =>
      ungetc
      return (false, out)
    | some ch =>
      if ch < byte ' ' then
        ungetc
        return (false, out)
      else if ch = byte '"' then return (true, out)
      else if ch = byte '\\' then
        match ← getc with
        | none => return (false, out)
        | some ch =>
          if ch = byte 'u' then
            match ← parse_codepoint with
            | none => return (false, out)
            | some encoded => parse_string_loop fuel (out ++ encoded)
          else
            match unescape ch with
            | none => return (false, out)
            | some ch => parse_string_loop fuel (out ++ [ch])
      else parse_string_loop fuel (out ++ [ch])

def parse_string : Reader (Bool × Bytes) := do parse_string_loop (← remaining) []

def isNumeric (ch : UInt8) : Bool :=
  isDigit ch || ch ∈ [byte '+', byte '-', byte 'e', byte 'E', byte '.']

def parse_number_loop : Nat → Bytes → Reader Bytes
  | 0, num_str => return num_str
  | fuel + 1, num_str => do
    match ← getc with
    | some ch =>
      if isNumeric ch then parse_number_loop fuel (num_str ++ [ch])
      else
        ungetc
        return num_str
    | none =>
      ungetc
      return num_str

def parse_number : Reader Bytes := do parse_number_loop (← remaining) []

/-- `value(f)` with the result of `strtod`. -/
def set_number (out : Value) (num_str : Bytes) : Reader (Bool × Value) :=
  match strtod num_str with
  | none => return (false, out)
  | some q =>
    match nearest q with
    | none => throw (.overflow_error "")
    | some n => return (true, .ofDouble n)

/-! `out` is the value that the context points to. A call goes one level down or one item on, and
reads a character for every two calls. -/

mutual

def parse_value : (fuel : Nat) → (out : Value) → Reader (Bool × Value)
  | 0, out => return (false, out)
  | fuel + 1, out => do
    skip_ws
    let some ch ← getc | do
      ungetc
      return (false, out)
    if ch = byte 'n' then
      return if ← matches_ "ull".toList then (true, .null) else (false, out)
    else if ch = byte 'f' then
      return if ← matches_ "alse".toList then (true, .ofBool false) else (false, out)
    else if ch = byte 't' then
      return if ← matches_ "rue".toList then (true, .ofBool true) else (false, out)
    else if ch = byte '"' then
      let (ok, s) ← parse_string
      return (ok, .ofString s)
    else if ch = byte '[' then
      if ← expect ']' then return (true, .ofArray [])
      parse_items fuel []
    else if ch = byte '{' then
      if ← expect '}' then return (true, .ofObject .empty)
      parse_fields fuel .empty
    else if isDigit ch || ch = byte '-' then
      ungetc
      set_number out (← parse_number)
    else
      ungetc
      return (false, out)

def parse_items : (fuel : Nat) → (items : List Value) → Reader (Bool × Value)
  | 0, items => return (false, .ofArray items)
  | fuel + 1, items => do
    let (ok, item) ← parse_value fuel .null
    if !ok then return (false, .ofArray (items ++ [item]))
    if ← expect ',' then parse_items fuel (items ++ [item])
    else return (← expect ']', .ofArray (items ++ [item]))

def parse_fields : (fuel : Nat) → (fields : Object) → Reader (Bool × Value)
  | 0, fields => return (false, .ofObject fields)
  | fuel + 1, fields => do
    if !(← expect '"') then return (false, .ofObject fields)
    let (ok, key) ← parse_string
    if !ok then return (false, .ofObject fields)
    if !(← expect ':') then return (false, .ofObject fields)
    -- A repeated key is written over, and keeps its value where nothing is written.
    let (ok, value) ← parse_value fuel (fields.read key)
    if !ok then return (false, .ofObject (fields.insert key value))
    if ← expect ',' then parse_fields fuel (fields.insert key value)
    else return (← expect '}', .ofObject (fields.insert key value))

end

/-- The rest of the line, without control characters. -/
def near (s : Input) : Bytes :=
  let rest := if s.consumed then s.rest.tail else s.rest
  (rest.takeWhile (· ≠ byte '\n')).filter (byte ' ' ≤ ·)

def parse (message : Bytes) : Except Exn (Value × Bytes) := do
  let ((ok, v), s) ← (parse_value (2 * message.length + 2) .null).run { rest := message }
  if ok then return (v, [])
  return (v, ascii "syntax error at line " ++ decimal s.line ++ ascii " near: " ++ near s)

end Rosbridge.picojson
