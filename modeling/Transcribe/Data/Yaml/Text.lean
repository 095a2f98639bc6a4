/-
  Transcribe.Data.Yaml.Text — the characters of YAML and places in a text.

  A line ends at any of five characters, a carriage return with a line feed being one end. A
  place knows its line and its column, since both carry meaning: lines end keys, columns nest.
-/

namespace Transcribe.Data.Yaml

/-! ## Characters -/

/-- Whether a character may stand in a text. Most controls may not. -/
def isAllowed (c : Char) : Bool :=
  let n := c.toNat
  c == '\t' || c == '\n' || c == '\r' || (0x20 ≤ n && n ≤ 0x7e) || n == 0x85
    || (0xa0 ≤ n && n ≤ 0xfffd) || 0x10000 ≤ n

def isBlank (c : Char) : Bool := c == ' ' || c == '\t'

/-- The line separator and the paragraph separator, which stay what they are when lines are
joined. -/
def isSeparator (c : Char) : Bool := c == '\u2028' || c == '\u2029'

def isBreak (c : Char) : Bool := c == '\n' || c == '\r' || c == '\u0085' || isSeparator c

def breakText (c : Char) : List Char := if isSeparator c then [c] else ['\n']

def isNameChar (c : Char) : Bool := c.isAlphanum || c == '_' || c == '-'

def isFlowMark (c : Char) : Bool := ",[]\x7b\x7d".toList.contains c

def endsWord : List Char → Bool
  | [] => true
  | c :: _ => isBlank c || isBreak c

/-- Whether a mark that divides documents comes first. It is one only at the start of a line. -/
def startsMarker : List Char → Bool
  | '-' :: '-' :: '-' :: cs => endsWord cs
  | '.' :: '.' :: '.' :: cs => endsWord cs
  | _ => false

def character? (n : Nat) : Option Char := if n.isValidChar then some (Char.ofNat n) else none

/-! ## Places -/

structure Position where
  index : Nat := 0
  line : Nat := 0
  column : Nat := 0

namespace Position

def skip (p : Position) (count : Nat) : Position :=
  { p with index := p.index + count, column := p.column + count }

def newline (p : Position) (count : Nat) : Position :=
  ⟨p.index + count, p.line + 1, 0⟩

end Position

structure Cursor where
  place : Position
  rest : List Char

namespace Cursor

def drop (c : Cursor) (count : Nat) : Cursor := ⟨c.place.skip count, c.rest.drop count⟩

def dropWhile (c : Cursor) (p : Char → Bool) : Cursor := c.drop (c.rest.takeWhile p).length

/-- Past the rest of a line that holds at most a comment. -/
def endLine? (c : Cursor) : Option Cursor := go false c.place c.rest
where
  /-- Goes on, inside a comment or not. -/
  go (comment : Bool) (p : Position) : List Char → Option Cursor
    | [] => some ⟨p, []⟩
    | '\r' :: '\n' :: cs => some ⟨p.newline 2, cs⟩
    | c :: cs =>
      if isBreak c then some ⟨p.newline 1, cs⟩
      else if comment || isBlank c then go comment (p.skip 1) cs
      else if c == '#' then go true (p.skip 1) cs
      else none

end Cursor

end Transcribe.Data.Yaml
