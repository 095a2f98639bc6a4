/-
  Transcribe.Text.Source — one input text with its name, and walking in it by byte offset.

  The length, the comments and the line starts are computed once and kept beside the text.
  Walking never leaves a boundary for a place inside a character: at an offset that is no
  boundary every forward walk stays where it is.

  Forward, a walk measures the text from the offset on. Backward it goes step by step, a
  character of space or a whole comment, which the table gives: a comment cannot be told from its
  end. The space and comments between two tokens belong to the first up to the end of its line
  and to the second from there on (`leadStart`).
  - `skipSpace` and its kin go forward, `skipSpaceBack` and `skipBlanksBack` go back.
  - `place?` describes an offset for a reader: line, column, the line and a caret below it.
-/

import Transcribe.Text.Comment
import Transcribe.Text.Line
import Transcribe.Text.Ruler

namespace Transcribe.Text

structure Source where
  name : String
  chars : List Char
  size : Nat
  comments : List Span
  lineStarts : List Nat
  size_eq : size = byteLength chars
  comments_eq : comments = Text.comments chars
  lineStarts_eq : lineStarts = Text.lineStarts chars

/-- A position spelled out for a reader. Lines count from 1, columns from 0. -/
structure Place where
  name : String
  offset : Nat
  line : Nat
  column : Nat
  lineText : String
  caret : String
  deriving Repr, DecidableEq

namespace Place

def label (p : Place) : String := s!"{p.name}:{p.line}:{p.column + 1}"

def excerpt (p : Place) : String := p.lineText ++ "\n" ++ p.caret

end Place

namespace Source

def ofChars (name : String) (chars : List Char) : Source :=
  ⟨name, chars, byteLength chars, Text.comments chars, Text.lineStarts chars, rfl, rfl, rfl⟩

def ofString (name text : String) : Source := ofChars name text.toList

def rest? (s : Source) (o : Nat) : Option (List Char) := dropBytes? o s.chars

def slice? (s : Source) (span : Span) : Option (List Char) := Text.slice? s.chars span

def terminator (s : Source) : String := Text.terminator s.chars

def hasAt (s : Source) (o : Nat) (t : String) : Bool :=
  (s.rest? o).any fun cs => t.toList.isPrefixOf cs

/-! ## Forward -/

def forward (s : Source) (measure : List Char → Nat) (o : Nat) : Nat :=
  match s.rest? o with
  | some cs => o + measure cs
  | none => o

/-- Past space and comments; with `toBreak`, no further than the end of the line. -/
def skipSpace (s : Source) (toBreak : Bool) (o : Nat) : Nat :=
  s.forward (spaceLength toBreak .space) o

def skipBlanks (s : Source) (o : Nat) : Nat := s.forward blankLength o

def skipBreak (s : Source) (o : Nat) : Nat := s.forward breakLength o

def skipBlankLines (s : Source) (o : Nat) : Nat := s.forward (blankLinesLength 0) o

/-! ## Backward -/

def commentBefore? (s : Source) (o : Nat) : Option Nat :=
  (s.comments.find? fun c => c.stop == o).map (·.start)

/-- One step back over a comment or one character of space; `o` itself where there is none. -/
def stepBack (s : Source) (o : Nat) : Nat :=
  match s.commentBefore? o with
  | some start => start
  | none =>
    match charBefore? o s.chars with
    | some c => if isBlank c || isBreak c then o - 1 else o
    | none => o

def stepsBack (s : Source) : Nat → Nat → Nat
  | 0, o => o
  | n + 1, o => if s.stepBack o < o then stepsBack s n (s.stepBack o) else o

/-- Back over space and comments. Each step is at least one byte long, so `o` steps suffice. -/
def skipSpaceBack (s : Source) (o : Nat) : Nat := s.stepsBack (min o s.size) (min o s.size)

def blanksBack (s : Source) : Nat → Nat → Nat
  | 0, o => o
  | n + 1, o =>
    match charBefore? o s.chars with
    | some c => if isBlank c then blanksBack s n (o - 1) else o
    | none => o

def skipBlanksBack (s : Source) (o : Nat) : Nat := s.blanksBack (min o s.size) (min o s.size)

/-- Where the space and comments in front of `o` begin that belong to what starts there. What
stands on the line where the text before them ends belongs to that text. -/
def leadStart (s : Source) (o : Nat) : Nat :=
  min o (s.skipBreak (s.skipSpace true (s.skipSpaceBack o)))

/-! ## Lines and columns -/

def lineNumber (s : Source) (o : Nat) : Nat := s.lineStarts.countP (· ≤ o)

def lineStart (s : Source) (o : Nat) : Nat := (s.lineStarts.filter (· ≤ o)).getLastD 0

def lineEnd (s : Source) (o : Nat) : Nat := lineEndFrom o 0 s.chars

def column? (s : Source) (r : Ruler) (o : Nat) : Option Nat :=
  (s.slice? ⟨s.lineStart o, min o s.size⟩).map (r.across 0)

/-- The position of `o` spelled out; an offset past the end is taken as the end. -/
def place? (s : Source) (r : Ruler) (o : Nat) : Option Place :=
  let o := min o s.size
  match s.slice? ⟨s.lineStart o, o⟩, s.slice? ⟨s.lineStart o, s.lineEnd o⟩ with
  | some before, some line => some {
      name := s.name
      offset := o
      line := s.lineNumber o
      column := r.across 0 before
      lineText := String.ofList line
      caret := String.ofList (before.map (fun c => if c == '\t' then '\t' else ' ') ++ ['^']) }
  | _, _ => none

end Source

end Transcribe.Text
