/-
  Transcribe.Text.Ruler — columns.

  A ruler measures text in columns: a tab goes on to the next multiple of the tab stop, any
  other character takes its width. Nothing but `Ruler.standard` fixes what the width of a
  character is.

  Columns are natural numbers and have no bound, so the column behind a tab is always greater
  than the one in front of it, and a column that is not 0 stays so up to the end of its line
  (`Ruler.lt_advance`, `through_pos` rest on this). A column that is kept in a word of 64
  bits is the same number as long as it is below 2^64. For a text that fits into memory only a
  tab stop of about 2^63 leads past that: there a word would wrap around, or the program that
  keeps it would stop, and nothing is said about it here.
  - `advance`: the column behind one character of a line.
  - `across`, `through`: the column behind a stretch of a line, and behind any text.
-/

import Transcribe.Text.Space
import Transcribe.Text.Width

namespace Transcribe.Text

structure Ruler where
  tab : Nat
  width : Char → Nat
  tab_pos : 0 < tab

namespace Ruler

def advance (r : Ruler) (column : Nat) (c : Char) : Nat :=
  if c == '\t' then (column / r.tab + 1) * r.tab else column + r.width c

def across (r : Ruler) (column : Nat) (cs : List Char) : Nat := cs.foldl r.advance column

/-- The column behind `c`, which starts a new line if it is a line break. -/
def step (r : Ruler) (column : Nat) (c : Char) : Nat :=
  if isBreak c then 0 else r.advance column c

/-- The column behind `cs`, which may hold several lines. -/
def through (r : Ruler) (column : Nat) (cs : List Char) : Nat := cs.foldl r.step column

end Ruler

/-- A ruler for a terminal. A tab stop of 0 is taken as 1. -/
def Ruler.standard (tab : Nat) : Ruler := ⟨max tab 1, terminalWidth, by omega⟩

end Transcribe.Text
