/-
  Transcribe.Text.Space — runs of space and comments at the head of a text.

  Every function here reads a list of characters from its head and answers a number of bytes.
  A line comment runs from `//` to the line break, which it leaves; a block comment runs from
  `/*` through the first `*/` behind it, or to the end of the text where there is none.
-/

import Transcribe.Text.Offset

namespace Transcribe.Text

/-- Space that does not end a line: blank, tab and form feed. -/
def isBlank (c : Char) : Bool := c == ' ' || c == '\t' || c == '\x0c'

def isBreak (c : Char) : Bool := c == '\n' || c == '\r'

inductive Inside where
  | space
  | line
  | block
  deriving Repr, DecidableEq

/-- Bytes of the space and comments at the head. With `toBreak` the run ends at the first line
break outside a block comment. -/
def spaceLength (toBreak : Bool) : Inside → List Char → Nat
  | .space, '/' :: '/' :: cs => 2 + spaceLength toBreak .line cs
  | .space, '/' :: '*' :: cs => 2 + spaceLength toBreak .block cs
  | .space, c :: cs =>
    if isBreak c then if toBreak then 0 else 1 + spaceLength toBreak .space cs
    else if isBlank c then 1 + spaceLength toBreak .space cs
    else 0
  | .line, c :: cs =>
    if isBreak c then if toBreak then 0 else 1 + spaceLength toBreak .space cs
    else c.utf8Size + spaceLength toBreak .line cs
  | .block, '*' :: '/' :: cs => 2 + spaceLength toBreak .space cs
  | .block, c :: cs => c.utf8Size + spaceLength toBreak .block cs
  | _, [] => 0

def blankLength : List Char → Nat
  | [] => 0
  | c :: cs => if isBlank c then 1 + blankLength cs else 0

/-- Bytes of the line break at the head: `\r\n` is one break. -/
def breakLength : List Char → Nat
  | '\r' :: '\n' :: _ => 2
  | c :: _ => if isBreak c then 1 else 0
  | [] => 0

/-- Bytes of the lines at the head that hold blanks only, breaks included, when `passed` bytes
of the first of them stand before the head. -/
def blankLinesLength (passed : Nat) : List Char → Nat
  | '\r' :: '\n' :: cs => passed + 2 + blankLinesLength 0 cs
  | c :: cs =>
    if isBreak c then passed + 1 + blankLinesLength 0 cs
    else if isBlank c then blankLinesLength (passed + 1) cs
    else 0
  | [] => 0

end Transcribe.Text
