/-
  Transcribe.Data.Json.Reader — reading JSON text.

  Text is read by the standard to the letter: no comma before a closing bracket, no leading
  zeros, no control characters in strings, escaped surrogates in pairs only.
-/

import Transcribe.Data.Digits
import Transcribe.Data.Json

namespace Transcribe.Data.Json

def isSpace (c : Char) : Bool := c == ' ' || c == '\t' || c == '\n' || c == '\r'

def skipSpace (cs : List Char) : List Char := cs.dropWhile isSpace

/-! ## Strings -/

def escaped? (c : Char) : Option Char :=
  if c == '\x22' || c == '\\' || c == '/' then some c
  else if c == 'b' then some '\x08'
  else if c == 'f' then some '\x0c'
  else if c == 'n' then some '\n'
  else if c == 'r' then some '\r'
  else if c == 't' then some '\t'
  else none

/-- The code points of a string up to its closing quote, and what follows it. Surrogates are
still apart. -/
def codePoints? : List Char → Option (List Nat × List Char)
  | [] => none
  | '\x22' :: cs => some ([], cs)
  | '\\' :: 'u' :: a :: b :: c :: d :: cs => do
    let n ← ofDigits? 16 [a, b, c, d]
    let (ns, rest) ← codePoints? cs
    return (n :: ns, rest)
  | '\\' :: c :: cs => do
    let e ← escaped? c
    let (ns, rest) ← codePoints? cs
    return (e.toNat :: ns, rest)
  | c :: cs =>
    if c.toNat < 0x20 || c == '\\' then none
    else do
      let (ns, rest) ← codePoints? cs
      return (c.toNat :: ns, rest)

/-- Characters of code points, with each pair of surrogates put together. -/
def characters? : List Nat → Option (List Char)
  | [] => some []
  | n :: ns =>
    if 0xD800 ≤ n && n < 0xDC00 then
      match ns with
      | low :: rest =>
        if 0xDC00 ≤ low && low < 0xE000 then
          (characters? rest).map (Char.ofNat (0x10000 + (n - 0xD800) * 0x400 + (low - 0xDC00)) :: ·)
        else none
      | [] => none
    else if 0xDC00 ≤ n && n < 0xE000 then none
    else (characters? ns).map (Char.ofNat n :: ·)

def string? (cs : List Char) : Option (String × List Char) := do
  let (ns, rest) ← codePoints? cs
  return (String.ofList (← characters? ns), rest)

/-! ## Numbers and words -/

def isDigit (c : Char) : Bool := '0' ≤ c && c ≤ '9'

def areDigits (cs : List Char) : Bool := !cs.isEmpty && cs.all isDigit

def isExponent : List Char → Bool
  | [] => true
  | mark :: cs =>
    (mark == 'e' || mark == 'E') &&
      match cs with
      | sign :: digits => if sign == '+' || sign == '-' then areDigits digits else areDigits cs
      | [] => false

def isFraction : List Char → Bool
  | '.' :: cs => areDigits (cs.takeWhile isDigit) && isExponent (cs.dropWhile isDigit)
  | cs => isExponent cs

def isUnsigned : List Char → Bool
  | '0' :: cs => isFraction cs
  | cs => areDigits (cs.takeWhile isDigit) && isFraction (cs.dropWhile isDigit)

def isNumber : List Char → Bool
  | '-' :: cs => isUnsigned cs
  | cs => isUnsigned cs

def isWordChar (c : Char) : Bool := c.isAlphanum || c == '+' || c == '-' || c == '.'

def ofWord? (w : List Char) : Option Json :=
  if w = "null".toList then some .null
  else if w = "true".toList then some (.bool true)
  else if w = "false".toList then some (.bool false)
  else if isNumber w then some (.number (String.ofList w))
  else none

/-! ## Values -/

mutual

def value? : Nat → List Char → Option (Json × List Char)
  | 0, _ => none
  | n + 1, cs =>
    match skipSpace cs with
    | '\x22' :: cs => (string? cs).map fun r => (.str r.1, r.2)
    | '[' :: cs =>
      match skipSpace cs with
      | ']' :: cs => some (.arr [], cs)
      | cs => (items? n cs).map fun r => (.arr r.1, r.2)
    | '\x7b' :: cs =>
      match skipSpace cs with
      | '\x7d' :: cs => some (.obj [], cs)
      | cs => (members? n cs).map fun r => (.obj r.1, r.2)
    | cs => (ofWord? (cs.takeWhile isWordChar)).map fun j => (j, cs.dropWhile isWordChar)

def items? : Nat → List Char → Option (List Json × List Char)
  | 0, _ => none
  | n + 1, cs => do
    let (j, cs) ← value? n cs
    match skipSpace cs with
    | ',' :: cs =>
      let (js, cs) ← items? n cs
      return (j :: js, cs)
    | ']' :: cs => return ([j], cs)
    | _ => none

def members? : Nat → List Char → Option (List (String × Json) × List Char)
  | 0, _ => none
  | n + 1, cs =>
    match skipSpace cs with
    | '\x22' :: cs => do
      let (k, cs) ← string? cs
      match skipSpace cs with
      | ':' :: cs =>
        let (j, cs) ← value? n cs
        match skipSpace cs with
        | ',' :: cs =>
          let (ms, cs) ← members? n cs
          return ((k, j) :: ms, cs)
        | '\x7d' :: cs => return ([(k, j)], cs)
        | _ => none
      | _ => none
    | _ => none

end

/-- The value a text holds. Every call reads a character or is made by one that has just read
one, so twice the length is enough. -/
def ofText? (text : String) : Option Json :=
  match value? (2 * text.length + 2) text.toList with
  | some (j, rest) => if (skipSpace rest).isEmpty then some j else none
  | none => none

end Transcribe.Data.Json
