/-
  Transcribe.Text.Dedent — taking indentation away from the lines of a text.

  Indentation is measured as it is read: a blank is one column, and a tab goes on to the next
  tab stop. Characters are left out as a whole, as long as the column in front of them is below
  the width, so the last one may reach past it. A line starts behind a line feed only.

  The column is a natural number without a bound, as in `Transcribe.Text.Ruler`; one that is
  kept in a word of 64 bits differs only where an indentation or a tab stop of about 2^63 leads
  it past 2^64.
  - `dedent_zero`: without columns to take away nothing changes.
-/

import Transcribe.Text.Ruler

namespace Transcribe.Text

/-- Leaves out the first `columns` columns of the blanks and tabs that lead each line. The head
stands at a column of its line's indentation, or past the indentation (`none`). A line starts
behind a line feed. -/
def dedent (r : Ruler) (columns : Nat) : Option Nat → List Char → List Char
  | _, [] => []
  | some column, c :: cs =>
    if column < columns && (c == ' ' || c == '\t') then
      dedent r columns (some (if c == '\t' then (column / r.tab + 1) * r.tab else column + 1)) cs
    else c :: dedent r columns (if c == '\n' then some 0 else none) cs
  | none, c :: cs => c :: dedent r columns (if c == '\n' then some 0 else none) cs

/-- Without columns to take away nothing changes. -/
@[simp] theorem dedent_zero (r : Ruler) (column? : Option Nat) (cs : List Char) :
    dedent r 0 column? cs = cs := by
  induction cs generalizing column? with
  | nil => cases column? <;> rfl
  | cons c cs ih => cases column? <;> simp [dedent, ih]

end Transcribe.Text
