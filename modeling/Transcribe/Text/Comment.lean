/-
  Transcribe.Text.Comment — the table of comments of a text.

  One pass over the text finds every comment in order. String and character literals are
  passed over, so what looks like a comment inside one is none; a literal ends at its quote or
  at the end of its line, and a backslash in it takes the next character along.
  - `start_lt_stop_of_mem_comments`: no comment is empty.
-/

import Transcribe.Text.Space

namespace Transcribe.Text

/-- What the pass is in. A comment remembers where it began, a literal its quote. -/
inductive Region where
  | code
  | line (start : Nat)
  | block (start : Nat)
  | literal (quote : Char)
  deriving Repr, DecidableEq

def isQuote (c : Char) : Bool := c == '\x22' || c == '\x27'

/-- The comments from offset `o` on, where `cs` is the text from there. -/
def commentsFrom : Region → Nat → List Char → List Span
  | .code, o, '/' :: '/' :: cs => commentsFrom (.line o) (o + 2) cs
  | .code, o, '/' :: '*' :: cs => commentsFrom (.block o) (o + 2) cs
  | .code, o, c :: cs => commentsFrom (if isQuote c then .literal c else .code) (o + c.utf8Size) cs
  | .line start, o, c :: cs =>
    if isBreak c then ⟨start, o⟩ :: commentsFrom .code (o + c.utf8Size) cs
    else commentsFrom (.line start) (o + c.utf8Size) cs
  | .block start, o, '*' :: '/' :: cs => ⟨start, o + 2⟩ :: commentsFrom .code (o + 2) cs
  | .block start, o, c :: cs => commentsFrom (.block start) (o + c.utf8Size) cs
  | .literal quote, o, '\\' :: c :: cs => commentsFrom (.literal quote) (o + 1 + c.utf8Size) cs
  | .literal quote, o, c :: cs =>
    commentsFrom (if c == quote || isBreak c then .code else .literal quote) (o + c.utf8Size) cs
  | .line start, o, [] => [⟨start, o⟩]
  | .block start, o, [] => [⟨start, o⟩]
  | .code, _, [] => []
  | .literal _, _, [] => []

def comments (cs : List Char) : List Span := commentsFrom .code 0 cs

def Region.BeginsBefore (o : Nat) : Region → Prop
  | .line start => start < o
  | .block start => start < o
  | _ => True

theorem start_lt_stop_of_mem_commentsFrom {r : Region} {o : Nat} {cs : List Char} {s : Span}
    (hr : r.BeginsBefore o) (hs : s ∈ commentsFrom r o cs) : s.start < s.stop := by
  fun_induction commentsFrom r o cs with
  | case1 o cs ih => exact ih (by simp [Region.BeginsBefore]) hs
  | case2 o cs ih => exact ih (by simp [Region.BeginsBefore]) hs
  | case3 o c cs _ _ ih =>
    refine ih ?_ hs
    split <;> trivial
  | case4 o c cs start hb ih =>
    rcases List.mem_cons.1 hs with rfl | hs
    · exact hr
    · exact ih trivial hs
  | case5 o c cs start hb ih =>
    exact ih (by simp only [Region.BeginsBefore] at hr ⊢; omega) hs
  | case6 o cs start ih =>
    rcases List.mem_cons.1 hs with rfl | hs
    · simp only [Region.BeginsBefore] at hr ⊢; omega
    · exact ih trivial hs
  | case7 o c cs start _ ih =>
    exact ih (by simp only [Region.BeginsBefore] at hr ⊢; omega) hs
  | case8 o c cs quote ih => exact ih trivial hs
  | case9 o c cs quote _ ih =>
    refine ih ?_ hs
    split <;> trivial
  | case10 o start => simp only [List.mem_singleton] at hs; subst hs; exact hr
  | case11 o start => simp only [List.mem_singleton] at hs; subst hs; exact hr
  | case12 => cases hs
  | case13 => cases hs

/-- No comment is empty. -/
theorem start_lt_stop_of_mem_comments {cs : List Char} {s : Span} (hs : s ∈ comments cs) :
    s.start < s.stop :=
  start_lt_stop_of_mem_commentsFrom (r := .code) trivial hs

end Transcribe.Text
