import Rosbridge.Picojson.Parse
import Rosbridge.Serializer

/-! `value::serialize` without indentation, and the two halves of picojson as one package. -/

namespace Rosbridge.picojson

def hexDigits (ch : UInt8) : Bytes := [ch / 16, ch % 16].map fun digit =>
  if digit < 10 then byte '0' + digit else byte 'a' + (digit - 10)

def serialize_str_char (c : UInt8) : Bytes :=
  if c = byte '"' ∨ c = byte '\\' ∨ c = byte '/' then [byte '\\', c]
  else if c = 8 then ascii "\\b"
  else if c = 12 then ascii "\\f"
  else if c = 10 then ascii "\\n"
  else if c = 13 then ascii "\\r"
  else if c = 9 then ascii "\\t"
  else if c < 0x20 ∨ c = 0x7f then ascii "\\u00" ++ hexDigits c
  else [c]

def serialize_str (s : Bytes) : Bytes := byte '"' :: s.flatMap serialize_str_char ++ [byte '"']

mutual

def serialize_raw : Raw → Bytes
  | .null => ascii "null"
  | .boolean b => if b then ascii "true" else ascii "false"
  | .number n => printNumber n
  | .string s => serialize_str s
  | .array items => byte '[' :: serialize_items items ++ [byte ']']
  | .object fields => byte '{' :: serialize_fields fields ++ [byte '}']

def serialize_items : List Raw → Bytes
  | [] => []
  | item :: rest => serialize_raw item ++ (if rest.isEmpty then [] else [byte ',']) ++ serialize_items rest

def serialize_fields : List (Bytes × Raw) → Bytes
  | [] => []
  | field :: rest =>
    serialize_field field ++ (if rest.isEmpty then [] else [byte ',']) ++ serialize_fields rest

def serialize_field : Bytes × Raw → Bytes
  | (key, value) => serialize_str key ++ byte ':' :: serialize_raw value

end

def serialize (v : Value) : Bytes := serialize_raw v.raw

def package : Picojson := ⟨parse, serialize⟩

end Rosbridge.picojson
