/-
  Transcribe.Text.Line — the lines of a text.

  A line ends with `\n`, `\r\n` or a lone `\r`. Lines are found through the list of offsets
  they start at, which begins with 0 and rises.
-/

import Transcribe.Text.Space

namespace Transcribe.Text

/-- The line starts behind offset `o`, where `cs` is the text from there. -/
def lineStartsFrom (o : Nat) : List Char → List Nat
  | '\r' :: '\n' :: cs => (o + 2) :: lineStartsFrom (o + 2) cs
  | c :: cs =>
    if isBreak c then (o + 1) :: lineStartsFrom (o + 1) cs
    else lineStartsFrom (o + c.utf8Size) cs
  | [] => []

def lineStarts (cs : List Char) : List Nat := 0 :: lineStartsFrom 0 cs

/-- The first line break at or behind `target`, or the end of the text, where `cs` is the text
from offset `o`. -/
def lineEndFrom (target o : Nat) : List Char → Nat
  | [] => o
  | c :: cs => if target ≤ o && isBreak c then o else lineEndFrom target (o + c.utf8Size) cs

/-- The first line break of a text; a text of one line is taken to use `\n`. -/
def terminator : List Char → String
  | '\r' :: '\n' :: _ => "\r\n"
  | c :: cs => if c == '\r' then "\r" else if c == '\n' then "\n" else terminator cs
  | [] => "\n"

end Transcribe.Text
