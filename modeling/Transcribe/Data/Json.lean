/-
  Transcribe.Data.Json — JSON values and their printed form.

  Objects keep their members in order and may repeat a key. A number is its text.
-/

namespace Transcribe.Data

inductive Json where
  | null
  | bool (b : Bool)
  | number (token : String)
  | str (s : String)
  | arr (items : List Json)
  | obj (members : List (String × Json))
  deriving Inhabited

namespace Json

def nat (n : Nat) : Json := .number (toString n)

def hexDigit (n : Nat) : Char := (Nat.toDigits 16 n).headD '0'

/-- A character inside a string: quotes, backslashes and controls are escaped. -/
def escape (c : Char) : String :=
  if c == '\x22' then "\\\x22"
  else if c == '\\' then "\\\\"
  else if c == '\n' then "\\n"
  else if c == '\r' then "\\r"
  else if c == '\t' then "\\t"
  else if c == '\x08' then "\\b"
  else if c == '\x0c' then "\\f"
  else if c.toNat < 0x20 then
    "\\u00" ++ String.ofList [hexDigit (c.toNat / 16), hexDigit (c.toNat % 16)]
  else c.toString

def quoted (s : String) : String := "\x22" ++ String.join (s.toList.map escape) ++ "\x22"

def indentation (depth : Nat) : String := String.ofList (List.replicate (2 * depth) ' ')

mutual

/-- One member or item a line, two spaces a level; an empty array or object on one line. -/
def pretty (depth : Nat) : Json → String
  | .null => "null"
  | .bool true => "true"
  | .bool false => "false"
  | .number t => t
  | .str s => quoted s
  | .arr [] => "[]"
  | .arr (i :: is) =>
    "[\n" ++ prettyItems (depth + 1) (i :: is) ++ "\n" ++ indentation depth ++ "]"
  | .obj [] => "\x7b\x7d"
  | .obj (m :: ms) =>
    "\x7b\n" ++ prettyMembers (depth + 1) (m :: ms) ++ "\n" ++ indentation depth ++ "\x7d"

def prettyItems (depth : Nat) : List Json → String
  | [] => ""
  | [i] => indentation depth ++ pretty depth i
  | i :: is => indentation depth ++ pretty depth i ++ ",\n" ++ prettyItems depth is

def prettyMembers (depth : Nat) : List (String × Json) → String
  | [] => ""
  | [(k, v)] => indentation depth ++ quoted k ++ ": " ++ pretty depth v
  | (k, v) :: ms =>
    indentation depth ++ quoted k ++ ": " ++ pretty depth v ++ ",\n" ++ prettyMembers depth ms

end

end Json

end Transcribe.Data
