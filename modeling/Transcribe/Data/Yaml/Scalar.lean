/-
  Transcribe.Data.Yaml.Scalar — scalars in the five styles.

  A scalar may go on over several lines. What stands between two of its words, a gap, counts
  as it is on one line; over lines its blanks are left out and its breaks are folded: one break
  is a blank, each further one is a line break. A literal scalar keeps its breaks.
-/

import Transcribe.Data.Digits
import Transcribe.Data.Yaml.Text

namespace Transcribe.Data.Yaml

inductive Style where
  | plain
  | single
  | double
  | literal
  | folded
  deriving Repr, DecidableEq

structure Reading where
  text : List Char
  next : Cursor

def Reading.after (text : List Char) (r : Reading) : Reading := { r with text := text ++ r.text }

/-! ## Gaps -/

/-- What stands between two words of a scalar: blanks, or a first line break and more. -/
structure Gap where
  blanks : List Char := []
  first? : Option (List Char) := none
  more : List Char := []

namespace Gap

def isEmpty (g : Gap) : Bool := g.blanks.isEmpty && g.first?.isNone

/-- Blanks count only on the line of the word before them. -/
def addBlank (g : Gap) (c : Char) : Gap :=
  if g.first?.isSome then g else { g with blanks := g.blanks ++ [c] }

def addBreak (g : Gap) (text : List Char) : Gap :=
  match g.first? with
  | none => { first? := some text }
  | some _ => { g with more := g.more ++ text }

def text (g : Gap) : List Char :=
  match g.first? with
  | none => g.blanks
  | some ['\n'] => if g.more.isEmpty then [' '] else g.more
  | some first => first ++ g.more

end Gap

/-! ## Plain scalars -/

structure Context where
  flow : Bool
  indent : Nat

/-- Whether a plain scalar ends before a character. Behind a gap it also ends at a comment, at
a mark between documents and, outside of braces, at a line that is not indented. -/
def Context.ends (x : Context) (p : Position) (gap : Bool) (c : Char) (cs : List Char) : Bool :=
  (gap && (c == '#' || (!x.flow && p.column < x.indent) ||
      (p.column == 0 && startsMarker (c :: cs))))
    || (c == ':' && endsWord cs) || (x.flow && isFlowMark c)

/-- Whether a colon stands where it can neither end a key nor be text. -/
def Context.misplaces (x : Context) (c : Char) (cs : List Char) : Bool :=
  x.flow && c == ':' && cs.head?.any fun d => d == '?' || isFlowMark d

/-- A plain scalar and the gap behind it; whether that gap has a line break. -/
def plain? (x : Context) : Position → Gap → List Char → Option (Reading × Bool)
  | p, g, [] => some (⟨[], ⟨p, []⟩⟩, g.first?.isSome)
  | p, g, '\r' :: '\n' :: cs => plain? x (p.newline 2) (g.addBreak ['\n']) cs
  | p, g, c :: cs =>
    if isBreak c then plain? x (p.newline 1) (g.addBreak (breakText c)) cs
    else if isBlank c then
      if c == '\t' && g.first?.isSome && p.column < x.indent then none
      else plain? x (p.skip 1) (g.addBlank c) cs
    else if x.ends p (!g.isEmpty) c cs then some (⟨[], ⟨p, c :: cs⟩⟩, g.first?.isSome)
    else if x.misplaces c cs then none
    else (plain? x (p.skip 1) {} cs).map fun r => (r.1.after (g.text ++ [c]), r.2)

def isIndicator (c : Char) : Bool := ",[]\x7b\x7d#&*!|>\x27\x22%@`".toList.contains c

def startsPlain (flow : Bool) : List Char → Bool
  | [] => false
  | c :: cs =>
    if c == '-' then !endsWord cs
    else if c == '?' || c == ':' then !flow && !endsWord cs
    else !isIndicator c && !isBlank c

/-! ## Quoted scalars -/

def single? : Position → Gap → List Char → Option Reading
  | _, _, [] => none
  | p, g, '\r' :: '\n' :: cs => single? (p.newline 2) (g.addBreak ['\n']) cs
  | p, g, '\x27' :: '\x27' :: cs =>
    (single? (p.skip 2) {} cs).map (·.after (g.text ++ ['\x27']))
  | p, g, '\x27' :: cs => some ⟨g.text, ⟨p.skip 1, cs⟩⟩
  | p, g, c :: cs =>
    if isBreak c then single? (p.newline 1) (g.addBreak (breakText c)) cs
    else if isBlank c then single? (p.skip 1) (g.addBlank c) cs
    else if p.column == 0 && startsMarker (c :: cs) then none
    else (single? (p.skip 1) {} cs).map (·.after (g.text ++ [c]))

def escaped? (c : Char) : Option Char :=
  if c == '\x22' || c == '\\' || c == '/' || c == ' ' || c == '\t' then some c
  else if c == '0' then some '\x00'
  else if c == 'a' then some '\x07'
  else if c == 'b' then some '\x08'
  else if c == 't' then some '\t'
  else if c == 'n' then some '\n'
  else if c == 'v' then some '\x0b'
  else if c == 'f' then some '\x0c'
  else if c == 'r' then some '\r'
  else if c == 'e' then some '\x1b'
  else if c == 'N' then some '\u0085'
  else if c == '_' then some '\u00a0'
  else if c == 'L' then some '\u2028'
  else if c == 'P' then some '\u2029'
  else none

def codeLength? (c : Char) : Option Nat :=
  if c == 'x' then some 2 else if c == 'u' then some 4 else if c == 'U' then some 8 else none

inductive Escape where
  | none
  /-- Behind the backslash. -/
  | slash
  /-- Before `left + 1` more digits of a number that so far is `value`. -/
  | code (left value : Nat)

def double? : Escape → Position → Gap → List Char → Option Reading
  | _, _, _, [] => none
  | .none, p, g, '\r' :: '\n' :: cs => double? .none (p.newline 2) (g.addBreak ['\n']) cs
  | .none, p, g, c :: cs =>
    if isBreak c then double? .none (p.newline 1) (g.addBreak (breakText c)) cs
    else if isBlank c then double? .none (p.skip 1) (g.addBlank c) cs
    else if c == '\x22' then some ⟨g.text, ⟨p.skip 1, cs⟩⟩
    else if p.column == 0 && startsMarker (c :: cs) then none
    else if c == '\\' then (double? .slash (p.skip 1) {} cs).map (·.after g.text)
    else (double? .none (p.skip 1) {} cs).map (·.after (g.text ++ [c]))
  | .slash, p, _, '\r' :: '\n' :: cs => double? .none (p.newline 2) { first? := some [] } cs
  | .slash, p, _, c :: cs =>
    if isBreak c then double? .none (p.newline 1) { first? := some [] } cs
    else
      match escaped? c, codeLength? c with
      | some e, _ => (double? .none (p.skip 1) {} cs).map (·.after [e])
      | none, some length => double? (.code (length - 1) 0) (p.skip 1) {} cs
      | none, none => none
  | .code left value, p, _, c :: cs =>
    match digitValue? c with
    | none => none
    | some d =>
      match left with
      | k + 1 => double? (.code k (16 * value + d)) (p.skip 1) {} cs
      | 0 =>
        match character? (16 * value + d) with
        | some e => (double? .none (p.skip 1) {} cs).map (·.after [e])
        | none => none

/-! ## Block scalars -/

inductive Chomp where
  | strip
  | clip
  | keep

def Chomp.ofChar? (c : Char) : Option Chomp :=
  if c == '-' then some .strip else if c == '+' then some .keep else none

def indentDigit? (c : Char) : Option Nat :=
  if '1' ≤ c && c ≤ '9' then some (c.toNat - '0'.toNat) else none

/-- Behind the mark of a block scalar: how its end is read, the indentation if it is given, and
the first line. -/
def blockHeader? (c : Cursor) : Option (Chomp × Option Nat × Cursor) :=
  match c.rest with
  | a :: b :: _ =>
    match Chomp.ofChar? a, indentDigit? a, Chomp.ofChar? b, indentDigit? b with
    | some chomp, _, _, some indent => (c.drop 2).endLine?.map (chomp, some indent, ·)
    | _, some indent, some chomp, _ => (c.drop 2).endLine?.map (chomp, some indent, ·)
    | some chomp, _, _, none => (c.drop 1).endLine?.map (chomp, none, ·)
    | _, some indent, none, _ => (c.drop 1).endLine?.map (.clip, some indent, ·)
    | none, none, _, _ => c.endLine?.map (.clip, none, ·)
  | [a] =>
    match Chomp.ofChar? a, indentDigit? a with
    | some chomp, _ => (c.drop 1).endLine?.map (chomp, none, ·)
    | none, some indent => (c.drop 1).endLine?.map (.clip, some indent, ·)
    | none, none => c.endLine?.map (.clip, none, ·)
  | [] => some (.clip, none, c)

/-- The widest indentation among the empty lines at the start and the first line that is not
empty. A tab cannot indent. -/
def margin? (widest column : Nat) : List Char → Option Nat
  | [] => some (max widest column)
  | c :: cs =>
    if c == ' ' then margin? widest (column + 1) cs
    else if c == '\t' then none
    else if isBreak c then margin? (max widest column) 0 cs
    else some (max widest column)

structure Tail where
  ending : List Char := []
  more : List Char := []
  /-- Whether the last line starts with a blank. -/
  blank : Bool := false

/-- What the end of one line and the empty lines behind it are read as before a line that
starts with `c`. -/
def Tail.text (t : Tail) (folds : Bool) (c : Char) : List Char :=
  if folds && t.ending == ['\n'] && !t.blank && !isBlank c then
    if t.more.isEmpty then [' '] else t.more
  else t.ending ++ t.more

def Tail.last (t : Tail) : Chomp → List Char
  | .strip => []
  | .clip => t.ending
  | .keep => t.ending ++ t.more

def lines? (folds : Bool) (chomp : Chomp) (indent : Nat) :
    Bool → Position → Tail → List Char → Option Reading
  | _, p, t, [] => some ⟨t.last chomp, ⟨p, []⟩⟩
  | true, p, t, '\r' :: '\n' :: cs =>
    lines? folds chomp indent false (p.newline 2) { t with ending := ['\n'] } cs
  | true, p, t, c :: cs =>
    if isBreak c then
      lines? folds chomp indent false (p.newline 1) { t with ending := breakText c } cs
    else (lines? folds chomp indent true (p.skip 1) t cs).map (·.after [c])
  | false, p, t, '\r' :: '\n' :: cs =>
    lines? folds chomp indent false (p.newline 2) { t with more := t.more ++ ['\n'] } cs
  | false, p, t, c :: cs =>
    if isBreak c then
      lines? folds chomp indent false (p.newline 1) { t with more := t.more ++ breakText c } cs
    else if p.column < indent then
      if c == ' ' then lines? folds chomp indent false (p.skip 1) t cs
      else if c == '\t' then none
      else some ⟨t.last chomp, ⟨p, c :: cs⟩⟩
    else
      (lines? folds chomp indent true (p.skip 1) { blank := isBlank c } cs).map
        (·.after (t.text folds c ++ [c]))

/-- A block scalar behind its mark; `outer` is the column after which its lines have to start. -/
def block? (folds : Bool) (outer? : Option Nat) (c : Cursor) : Option Reading := do
  let (chomp, given?, c) ← blockHeader? c
  let indent ←
    match given? with
    | some n => some (outer?.getD 0 + n)
    | none => (margin? 0 0 c.rest).map fun n => max n (max 1 ((outer?.map (· + 1)).getD 0))
  lines? folds chomp indent false c.place {} c.rest

end Transcribe.Data.Yaml
