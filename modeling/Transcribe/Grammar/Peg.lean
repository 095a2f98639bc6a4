/-
  Transcribe.Grammar.Peg — parsing expressions, and what may stand between two tokens.

  A grammar gives every rule a parsing expression. Choice is ordered and repetition greedy.
  In a token rule nothing is skipped; elsewhere a gap of space and comments may stand between
  the parts of a sequence and between repetitions. A gap is as long as it can be (`gapFrom`); a
  block comment that is never closed is no part of it.
-/

import Transcribe.Text.Space

namespace Transcribe.Grammar

open Text (Span isBreak)

inductive Peg (ρ : Type) where
  /-- This text. -/
  | word (w : List Char)
  /-- The first of these texts that stands here. -/
  | words (ws : List (List Char))
  /-- One character of a class. -/
  | one (p : Char → Bool)
  | startOfText
  | endOfText
  | rule (r : ρ)
  | seq (a b : Peg ρ)
  | alt (a b : Peg ρ)
  | opt (a : Peg ρ)
  | many (a : Peg ρ)
  /-- That `a` stands ahead; nothing is consumed. -/
  | ahead (a : Peg ρ)
  /-- That `a` does not stand ahead; nothing is consumed. -/
  | notAhead (a : Peg ρ)

namespace Peg

variable {ρ : Type}

def text (t : String) : Peg ρ := .word t.toList

def oneOf (ts : List String) : Peg ρ := .words (ts.map String.toList)

def some (a : Peg ρ) : Peg ρ := .seq a (.many a)

def seqs : Peg ρ → List (Peg ρ) → Peg ρ
  | a, [] => a
  | a, b :: bs => .seq a (seqs b bs)

def alts : Peg ρ → List (Peg ρ) → Peg ρ
  | a, [] => a
  | a, b :: bs => .alt a (alts b bs)

def sepBy (a : Peg ρ) (separator : String) : Peg ρ :=
  .seq a (.many (.seq (text separator) a))

def size : Peg ρ → Nat
  | .seq a b | .alt a b => a.size + b.size + 1
  | .opt a | .many a | .ahead a | .notAhead a => a.size + 1
  | _ => 1

end Peg

/-- How a rule matches: a token rule is matched without gaps and has no parts. -/
inductive RuleKind where
  | tree
  | token
  deriving Repr, DecidableEq

structure Rules (ρ : Type) where
  /-- All rules, in the order of their definition. -/
  all : List ρ
  kind : ρ → RuleKind
  body : ρ → Peg ρ

structure Cursor where
  offset : Nat
  rest : List Char

/-! ## Gaps -/

/-- What a gap is in. A block comment remembers its start, to which the gap falls back if the
comment is never closed. -/
inductive Within where
  | space
  | line (start : Nat)
  | block (start : Nat) (opening : Cursor)

def isGapChar (c : Char) : Bool := c == ' ' || c == '\t' || isBreak c

def keepComment (s : Span) (g : List Span × Cursor) : List Span × Cursor := (s :: g.1, g.2)

def gapFrom : Within → Nat → List Char → List Span × Cursor
  | .space, o, '/' :: '/' :: cs => gapFrom (.line o) (o + 2) cs
  | .space, o, '/' :: '*' :: cs => gapFrom (.block o ⟨o, '/' :: '*' :: cs⟩) (o + 2) cs
  | .space, o, c :: cs => if isGapChar c then gapFrom .space (o + 1) cs else ([], ⟨o, c :: cs⟩)
  | .space, o, [] => ([], ⟨o, []⟩)
  | .line start, o, c :: cs =>
    if isBreak c then keepComment ⟨start, o⟩ (gapFrom .space (o + 1) cs)
    else gapFrom (.line start) (o + c.utf8Size) cs
  | .line start, o, [] => ([⟨start, o⟩], ⟨o, []⟩)
  | .block start _, o, '*' :: '/' :: cs => keepComment ⟨start, o + 2⟩ (gapFrom .space (o + 2) cs)
  | .block start opening, o, c :: cs => gapFrom (.block start opening) (o + c.utf8Size) cs
  | .block _ opening, _, [] => ([], opening)

def gap (c : Cursor) : List Span × Cursor := gapFrom .space c.offset c.rest

end Transcribe.Grammar
