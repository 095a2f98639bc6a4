/-
  Transcribe.Data.Yaml.Writer — writing texts as scalars.

  A text is written plain if it reads back as itself, else in single quotes, and in double
  quotes if it has characters that only an escape can show. A text of several lines is written
  as a literal scalar.
-/

import Transcribe.Data.Yaml.Scalar
import Transcribe.Data.Yaml.Word

namespace Transcribe.Data.Yaml

def isPrinted (c : Char) : Bool :=
  let n := c.toNat
  c == '\n' || (0x20 ≤ n && n ≤ 0x7e) || (0xa0 ≤ n && n ≤ 0xfffd && n != 0xfeff) || 0x10000 ≤ n

/-! ## Styles -/

def hasPair (p q : Char → Bool) : List Char → Bool
  | c :: d :: cs => (p c && q d) || hasPair p q (d :: cs)
  | _ => false

/-- Whether a mark makes a text something else than a plain scalar. -/
def hasMark (cs : List Char) : Bool :=
  "---".toList.isPrefixOf cs || "...".toList.isPrefixOf cs
    || cs.head?.any isIndicator
    || (cs.head?.any fun c => c == '-' || c == '?') && endsWord cs.tail
    || hasPair (· == ':') (fun c => isBlank c || isBreak c) cs || cs.getLast? == some ':'
    || hasPair (fun c => isBlank c || isBreak c) (· == '#') cs

/-- Whether blanks and breaks stay what they are between quotes. -/
def allowsSingle (cs : List Char) : Bool :=
  cs.all isPrinted && !hasPair isBreak (· == ' ') cs && !hasPair (· == ' ') isBreak cs

def allowsPlain (cs : List Char) : Bool :=
  cs.all isPrinted && !cs.any isBreak && cs.head? != some ' ' && cs.getLast? != some ' '
    && !hasMark cs

def allowsLiteral (cs : List Char) : Bool :=
  cs.all isPrinted && cs.getLast? != some ' ' && !hasPair (· == ' ') isBreak cs

def styleOf (text : String) : Style :=
  let cs := text.toList
  if cs.contains '\n' then if allowsLiteral cs then .literal else .double
  else if allowsPlain cs && !Word.isReserved text then .plain
  else if allowsSingle cs then .single
  else .double

/-! ## Texts of scalars -/

def singleText (indent : Nat) : Bool → List Char → List Char
  | fresh, [] => if fresh then List.replicate indent ' ' else []
  | fresh, c :: cs =>
    if isBreak c then c :: singleText indent true cs
    else
      (if fresh then List.replicate indent ' ' else [])
        ++ (if c == '\x27' then [c, c] else [c]) ++ singleText indent false cs

def hexText (width n : Nat) : List Char :=
  let digits := (Nat.toDigits 16 n).map Char.toUpper
  List.replicate (width - digits.length) '0' ++ digits

def escape? (c : Char) : Option Char :=
  if c == '\x22' || c == '\\' then some c
  else if c == '\x00' then some '0'
  else if c == '\x07' then some 'a'
  else if c == '\x08' then some 'b'
  else if c == '\t' then some 't'
  else if c == '\n' then some 'n'
  else if c == '\x0b' then some 'v'
  else if c == '\x0c' then some 'f'
  else if c == '\r' then some 'r'
  else if c == '\x1b' then some 'e'
  else if c == '\u0085' then some 'N'
  else if c == '\u2028' then some 'L'
  else if c == '\u2029' then some 'P'
  else none

def doubleChar (c : Char) : List Char :=
  match escape? c with
  | some e => ['\\', e]
  | none =>
    if isPrinted c then [c]
    else if c.toNat ≤ 0xff then '\\' :: 'x' :: hexText 2 c.toNat
    else if c.toNat ≤ 0xffff then '\\' :: 'u' :: hexText 4 c.toNat
    else '\\' :: 'U' :: hexText 8 c.toNat

def literalText (indent : Nat) : Bool → List Char → List Char
  | _, [] => []
  | fresh, c :: cs =>
    if isBreak c then c :: literalText indent true cs
    else (if fresh then List.replicate indent ' ' else []) ++ c :: literalText indent false cs

def keepsEnd (cs : List Char) : Bool :=
  match cs.reverse with
  | [c] => isBreak c
  | c :: d :: _ => isBreak c && isBreak d
  | [] => false

/-- What the mark of a literal scalar is followed by: the indentation if the text starts with
space, and what becomes of the end. -/
def literalHints (cs : List Char) : List Char :=
  (if cs.head?.any fun c => c == ' ' || isBreak c then ['2'] else [])
    ++ (if keepsEnd cs then ['+'] else if cs.getLast?.any isBreak then [] else ['-'])

def written (indent : Nat) (text : String) : String :=
  let cs := text.toList
  match styleOf text with
  | .plain => text
  | .literal => "|" ++ String.ofList (literalHints cs) ++ "\n"
      ++ String.ofList (literalText indent true cs)
  | .single => "\x27" ++ String.ofList (singleText indent false cs) ++ "\x27"
  | _ => "\x22" ++ String.ofList (cs.flatMap doubleChar) ++ "\x22"

def endsLine (text : String) : Bool :=
  styleOf text == .literal && text.toList.getLast?.any isBreak

def lineEnd (text : String) : String := if endsLine text then "" else "\n"

/-! ## Entries -/

def isSimpleKey (key : String) : Bool := key.utf8ByteSize ≤ 128 && !key.toList.any isBreak

def entryText (key value : String) : String :=
  (if isSimpleKey key then "  " ++ written 4 key ++ ": "
    else "  ? " ++ written 4 key ++ lineEnd key ++ "  : ")
    ++ written 4 value ++ lineEnd value

/-- Whether the last literal scalar among texts keeps its end open. -/
def isOpenEnded (texts : List String) : Bool :=
  (texts.filter (styleOf · == .literal)).getLast?.any fun t => keepsEnd t.toList

end Transcribe.Data.Yaml
