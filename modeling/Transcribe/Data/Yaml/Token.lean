/-
  Transcribe.Data.Yaml.Token — the tokens of a text.

  A text is read token by token. Columns give tokens too: a deeper column starts a block, a
  lesser one ends the blocks it leaves. What is a key shows only at the colon behind it, so the
  start of a token that may be one is kept, and the key's token is put in front of it later.
  Sequences have no place in settings; a text with the mark of one has no tokens.

  A `Lexer` has the tokens so far, the columns of the open blocks and the `Candidate` for a key.
  A candidate is given up when its line ends or it is more than 1024 characters behind, which is
  an error where a key is required. Between braces columns count for nothing.
  - `settle?`: goes to the next token and ends the blocks that its column leaves.
  - `next?`: reads the token at the cursor.
  - `Token.ofText?`: the tokens of a text.
-/

import Transcribe.Data.Yaml.Scalar
import Transcribe.Data.Yaml.Tag

namespace Transcribe.Data.Yaml

inductive Token where
  | documentStart
  | documentEnd
  | version (major minor : Nat)
  /-- What a handle of tags stands for. -/
  | handle (name meaning : String)
  | blockStart
  | blockEnd
  | flowStart
  | flowEnd
  | comma
  | key
  | value
  | anchor (name : String)
  | reference (name : String)
  | tag (handle suffix : String)
  | scalar (style : Style) (text : String)
  deriving Repr, DecidableEq

structure Candidate where
  /-- Whether it has to be one, because it stands where the keys of its block stand. -/
  required : Bool
  /-- How many tokens come before it. -/
  number : Nat
  place : Position

/-- A key and its colon stand on one line and not too far apart. -/
def Candidate.isStale (k : Candidate) (p : Position) : Bool :=
  k.place.line < p.line || k.place.index + 1024 < p.index

structure Lexer where
  cursor : Cursor
  /-- The tokens so far, the last one first. -/
  tokens : List Token := []
  /-- Whether a key may start here. -/
  keyAllowed : Bool := true
  /-- The columns of the open blocks, the inmost first. -/
  indents : List Nat := []
  candidate? : Option Candidate := none
  /-- The candidates around each open brace, the inmost first. -/
  outer : List (Option Candidate) := []

namespace Lexer

def inFlow (s : Lexer) : Bool := !s.outer.isEmpty

def column (s : Lexer) : Nat := s.cursor.place.column

def emit (s : Lexer) (t : Token) : Lexer := { s with tokens := t :: s.tokens }

def insert (s : Lexer) (number : Nat) (t : Token) : Lexer :=
  let later := s.tokens.length - number
  { s with tokens := s.tokens.take later ++ t :: s.tokens.drop later }

def advance (s : Lexer) (count : Nat) : Lexer := { s with cursor := s.cursor.drop count }

/-! ## Blocks -/

def isDeeper (s : Lexer) (column : Nat) : Bool := s.indents.head?.all (· < column)

/-- Starts a block at a column that is deeper, its token behind the first `number` ones. -/
def openBlock (s : Lexer) (column number : Nat) : Lexer :=
  if !s.inFlow && s.isDeeper column then
    { s.insert number .blockStart with indents := column :: s.indents }
  else s

def closeBlocks (s : Lexer) (p : Nat → Bool) : Lexer :=
  let closed := s.indents.takeWhile p
  { s with tokens := closed.map (fun _ => .blockEnd) ++ s.tokens, indents := s.indents.dropWhile p }

/-! ## Keys -/

/-- Gives up the candidate, which must not have to be a key. -/
def dropKey? (s : Lexer) : Option Lexer :=
  if s.candidate?.any (·.required) then none else some { s with candidate? := none }

def saveKey? (s : Lexer) : Option Lexer :=
  if s.keyAllowed then
    let required := !s.inFlow && s.indents.head? == some s.column
    s.dropKey?.map ({ · with candidate? := some ⟨required, s.tokens.length, s.cursor.place⟩ })
  else some s

def dropStale? (s : Lexer) : Option Lexer :=
  let stale (k : Candidate) := k.isStale s.cursor.place
  if (s.candidate? :: s.outer).any fun k? => k?.any fun k => k.required && stale k then none
  else
    let keep (k? : Option Candidate) := k?.filter fun k => !stale k
    some { s with candidate? := keep s.candidate?, outer := s.outer.map keep }

/-! ## Space and comments -/

/-- Past space, comments and line breaks; whether a key may start there. Tabs count as space
where no key can start. -/
def skipGap (flow : Bool) : Bool → Bool → Position → List Char → Cursor × Bool
  | _, allowed, p, [] => (⟨p, []⟩, allowed)
  | _, allowed, p, '\r' :: '\n' :: cs => skipGap flow false (allowed || !flow) (p.newline 2) cs
  | comment, allowed, p, c :: cs =>
    if isBreak c then skipGap flow false (allowed || !flow) (p.newline 1) cs
    else if comment || c == ' ' || (c == '\t' && (flow || !allowed)) then
      skipGap flow comment allowed (p.skip 1) cs
    else if c == '#' then skipGap flow true allowed (p.skip 1) cs
    else (⟨p, c :: cs⟩, allowed)

/-- Goes to the next token: ends the blocks that its column leaves. -/
def settle? (s : Lexer) : Option Lexer :=
  let (cursor, allowed) := skipGap s.inFlow false s.keyAllowed s.cursor.place s.cursor.rest
  (dropStale? { s with cursor := cursor, keyAllowed := allowed }).map fun s =>
    if s.inFlow then s else s.closeBlocks (s.column < ·)

/-! ## Marks -/

/-- A mark between documents or a directive ends every block. -/
def leaveBlocks? (s : Lexer) : Option Lexer :=
  ((if s.inFlow then s else s.closeBlocks fun _ => true).dropKey?).map
    ({ · with keyAllowed := false })

def marker? (s : Lexer) (t : Token) : Option Lexer :=
  s.leaveBlocks?.map fun s => (s.advance 3).emit t

def openBrace? (s : Lexer) : Option Lexer :=
  s.saveKey?.map fun s =>
    (({ s with outer := s.candidate? :: s.outer, candidate? := none, keyAllowed := true }).advance
      1).emit .flowStart

def closeBrace? (s : Lexer) : Option Lexer :=
  s.dropKey?.map fun s =>
    (({ s with
        candidate? := s.outer.head?.join, outer := s.outer.tail, keyAllowed := false }).advance
      1).emit .flowEnd

def comma? (s : Lexer) : Option Lexer :=
  s.dropKey?.map fun s => (({ s with keyAllowed := true }).advance 1).emit .comma

def keyMark? (s : Lexer) : Option Lexer :=
  if !s.inFlow && !s.keyAllowed then none
  else
    (s.openBlock s.column s.tokens.length).dropKey?.map fun s =>
      (({ s with keyAllowed := !s.inFlow }).advance 1).emit .key

/-- The colon in front of a value. The candidate before it is a key. -/
def valueMark? (s : Lexer) : Option Lexer :=
  match s.candidate? with
  | some k =>
    let s := (s.insert k.number .key).openBlock k.place.column k.number
    some ((({ s with candidate? := none, keyAllowed := false }).advance 1).emit .value)
  | none =>
    if !s.inFlow && !s.keyAllowed then none
    else
      let s := s.openBlock s.column s.tokens.length
      some ((({ s with keyAllowed := !s.inFlow }).advance 1).emit .value)

/-! ## Names -/

def name? (s : Lexer) (token : String → Token) : Option Lexer := do
  let s ← s.saveKey?
  let cs := s.cursor.rest.drop 1
  let name := cs.takeWhile isNameChar
  let rest := cs.dropWhile isNameChar
  if !name.isEmpty && (endsWord rest || rest.head?.any fun c => "?:,]\x7d%@`".toList.contains c)
  then
    return (({ s with keyAllowed := false }).advance (1 + name.length)).emit
      (token (String.ofList name))
  else none

def tag? (s : Lexer) : Option Lexer := do
  let s ← s.saveKey?
  let (handle, suffix, count) ← tagParts? s.cursor.rest
  let rest := s.cursor.rest.drop count
  if endsWord rest || (s.inFlow && rest.head? == some ',') then
    return (({ s with keyAllowed := false }).advance count).emit (.tag handle suffix)
  else none

/-! ## Directives -/

def number? (c : Cursor) : Option (Nat × Cursor) :=
  let digits := c.rest.takeWhile Char.isDigit
  if 9 < digits.length then none else (ofDigits? 10 digits).map (·, c.drop digits.length)

def version? (c : Cursor) : Option (Token × Cursor) := do
  let (major, c) ← number? (c.dropWhile isBlank)
  if c.rest.head? != some '.' then none
  else
    let (minor, c) ← number? (c.drop 1)
    return (.version major minor, c)

def meaning? (c : Cursor) : Option (Token × Cursor) := do
  let c := c.dropWhile isBlank
  let h := handleText c.rest
  let c := c.drop h.length
  if (h == ['!'] || isHandle h) && c.rest.head?.any isBlank then
    let c := c.dropWhile isBlank
    let (text, count) ← tagText? true c.rest
    let c := c.drop count
    if count == 0 || !endsWord c.rest then none
    else return (.handle (String.ofList h) text, c)
  else none

def directive? (s : Lexer) : Option Lexer := do
  let s ← s.leaveBlocks?
  let c := s.cursor.drop 1
  let name := c.rest.takeWhile isNameChar
  let c := c.drop name.length
  if !endsWord c.rest then none
  else
    let (token, c) ←
      if name == "YAML".toList then version? c
      else if name == "TAG".toList then meaning? c
      else none
    return ({ s with cursor := ← c.endLine? }).emit token

/-! ## Scalars -/

def context (s : Lexer) : Context := ⟨s.inFlow, (s.indents.head?.map (· + 1)).getD 0⟩

def plainScalar? (s : Lexer) : Option Lexer := do
  let s ← s.saveKey?
  let (r, broken) ← plain? s.context s.cursor.place {} s.cursor.rest
  return ({ s with cursor := r.next, keyAllowed := broken }).emit
    (.scalar .plain (String.ofList r.text))

def quotedScalar? (s : Lexer) (style : Style) : Option Lexer := do
  let s ← s.saveKey?
  let c := s.cursor.drop 1
  let r ← if style == .single then single? c.place {} c.rest else double? .none c.place {} c.rest
  return ({ s with cursor := r.next, keyAllowed := false }).emit
    (.scalar style (String.ofList r.text))

def blockScalar? (s : Lexer) (style : Style) : Option Lexer := do
  let s ← s.dropKey?
  let r ← block? (style == .folded) s.indents.head? (s.cursor.drop 1)
  return ({ s with cursor := r.next, keyAllowed := true }).emit
    (.scalar style (String.ofList r.text))

/-! ## Texts -/

def next? (s : Lexer) (c : Char) (cs : List Char) : Option Lexer :=
  if s.column == 0 && c == '%' then s.directive?
  else if s.column == 0 && startsMarker (c :: cs) then
    s.marker? (if c == '-' then .documentStart else .documentEnd)
  else if c == '\x7b' then s.openBrace?
  else if c == '\x7d' then s.closeBrace?
  else if c == ',' then s.comma?
  else if c == '?' && (s.inFlow || endsWord cs) then s.keyMark?
  else if c == ':' && (s.inFlow || endsWord cs) then s.valueMark?
  else if c == '*' then s.name? .reference
  else if c == '&' then s.name? .anchor
  else if c == '!' then s.tag?
  else if c == '|' && !s.inFlow then s.blockScalar? .literal
  else if c == '>' && !s.inFlow then s.blockScalar? .folded
  else if c == '\x27' then s.quotedScalar? .single
  else if c == '\x22' then s.quotedScalar? .double
  else if startsPlain s.inFlow (c :: cs) then s.plainScalar?
  else none

def run? : Nat → Lexer → Option (List Token)
  | 0, _ => none
  | n + 1, s =>
    match s.settle? with
    | none => none
    | some s =>
      match s.cursor.rest with
      | [] => s.leaveBlocks?.map (·.tokens.reverse)
      | c :: cs => (s.next? c cs).bind (run? n)

end Lexer

/-- The start of a text. A byte order mark there is passed over, but has a column. -/
def Cursor.start : List Char → Cursor
  | '\ufeff' :: cs => ⟨Position.skip {} 1, cs⟩
  | cs => ⟨{}, cs⟩

/-- The tokens of a text. Every step but the last reads a character. -/
def Token.ofText? (text : String) : Option (List Token) :=
  let cs := text.toList
  if cs.all isAllowed then Lexer.run? (cs.length + 1) { cursor := Cursor.start cs } else none

end Transcribe.Data.Yaml
