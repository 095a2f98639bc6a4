/-
  Transcribe.Data.Yaml.Word — plain scalars that are not texts.

  Null, the truth values and the numbers have spellings of their own. A text that is spelled
  like one of them is written in quotes.
-/

import Transcribe.Data.Digits

namespace Transcribe.Data.Yaml.Word

def isNull (text : String) : Bool := ["~", "null", "Null", "NULL"].contains text

def bool? (text : String) : Option Bool :=
  if ["true", "True", "TRUE"].contains text then some true
  else if ["false", "False", "FALSE"].contains text then some false
  else none

/-- Words that some readers take for a truth value. -/
def isSwitch (text : String) : Bool :=
  ["y", "Y", "yes", "Yes", "YES", "on", "On", "ON",
   "n", "N", "no", "No", "NO", "off", "Off", "OFF"].contains text

/-! ## Integers -/

def base? (c : Char) : Option Nat :=
  if c == 'x' then some 16 else if c == 'o' then some 8 else if c == 'b' then some 2 else none

def based? : List Char → Option Nat
  | '0' :: b :: digits => (base? b).bind (ofDigits? · digits)
  | _ => none

/-- Digits behind a leading zero, which are a number to nobody. -/
def isPadded : List Char → Bool
  | '0' :: c :: cs => (c :: cs).all Char.isDigit
  | _ => false

def unsigned (signs : List Char) : List Char → List Char
  | [] => []
  | c :: cs => if signs.contains c then cs else c :: cs

def nat? (text : String) : Option Nat :=
  let cs := unsigned ['+'] text.toList
  (based? cs).or (if isPadded cs then none else ofDigits? 10 cs)

/-! ## Numbers of any kind -/

/-- The value of an exponent, which may be left out, less the digits behind the point. -/
def exponent? (places : Nat) : List Char → Option Int
  | [] => some (-places)
  | e :: cs =>
    if e != 'e' && e != 'E' then none
    else
      match cs with
      | '-' :: digits => (ofDigits? 10 digits).map fun n => -(n : Int) - places
      | _ => (ofDigits? 10 (unsigned ['+'] cs)).map fun n => (n : Int) - places

/-- The least number that no double comes near. -/
def doubleLimit : Nat := Nat.pow 2 1024 - Nat.pow 2 970

def isBelowLimit (digits : List Char) (exponent : Int) : Bool :=
  let digits := digits.dropWhile (· == '0')
  let size := (digits.length : Int) + exponent
  if digits.isEmpty || size < 300 then true
  else if 320 < size then false
  else
    match ofDigits? 10 digits with
    | some n =>
      if 0 ≤ exponent then n * Nat.pow 10 exponent.toNat < doubleLimit
      else n < doubleLimit * Nat.pow 10 (-exponent).toNat
    | none => false

/-- Whether this is a decimal number with an optional point and exponent that a double can
hold. -/
def isDecimal (cs : List Char) : Bool :=
  let whole := cs.takeWhile Char.isDigit
  let rest := cs.drop whole.length
  let (fraction, rest) := match rest with
    | '.' :: rest => (rest.takeWhile Char.isDigit, rest.dropWhile Char.isDigit)
    | rest => ([], rest)
  let digits := whole ++ fraction
  !digits.isEmpty && (exponent? fraction.length rest).any (isBelowLimit digits)

def isNonFinite (text : String) : Bool :=
  [".inf", ".Inf", ".INF", "+.inf", "+.Inf", "+.INF", "-.inf", "-.Inf", "-.INF",
   ".nan", ".NaN", ".NAN"].contains text

/-- Whether a text is spelled like a number. Numbers with a base have at most 128 bits. -/
def isNumeric (text : String) : Bool :=
  let cs := text.toList
  isNonFinite text
    || isPadded (unsigned ['+', '-'] cs)
    || isDecimal (unsigned ['+', '-'] cs)
    || (based? (unsigned ['+'] cs)).any (· < Nat.pow 2 128)
    || (cs.head? == some '-' && (based? (cs.drop 1)).any (· ≤ Nat.pow 2 127))

/-- Whether a plain scalar of this text would not be a text, at least to some readers. -/
def isReserved (text : String) : Bool :=
  text.isEmpty || isNull text || (bool? text).isSome || isSwitch text || isNumeric text

end Transcribe.Data.Yaml.Word
