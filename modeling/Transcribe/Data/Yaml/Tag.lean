/-
  Transcribe.Data.Yaml.Tag — the names of tags.

  A tag says of what type a node is. Its name is written in full between angle brackets, or
  as a handle, which stands for the first part, with the rest behind it.
-/

import Transcribe.Data.Digits
import Transcribe.Data.Yaml.Text

namespace Transcribe.Data.Yaml

/-! ## Octets -/

/-- The octets of a tag, in which a percent sign and two digits stand for one. -/
def octets? : List Char → Option (List Nat)
  | [] => some []
  | '%' :: a :: b :: cs => do
    let n ← ofDigits? 16 [a, b]
    return n :: (← octets? cs)
  | c :: cs => if c == '%' then none else (octets? cs).map (c.toNat :: ·)

def ofGroup (octets : List Nat) : Char := (character? (octets.foldl (64 * · + ·) 0)).getD '\ufffd'

/-- The text that octets stand for. Every octet over 127 belongs to a group whose first one
tells how many follow. -/
def ofOctets? : List Nat → Option (List Char)
  | [] => some []
  | n :: ns =>
    if n < 0x80 then (ofOctets? ns).map (Char.ofNat n :: ·)
    else
      match ns with
      | a :: ns =>
        if a / 64 != 2 then none
        else if n / 32 == 6 then (ofOctets? ns).map (ofGroup [n % 32, a % 64] :: ·)
        else
          match ns with
          | b :: ns =>
            if b / 64 != 2 then none
            else if n / 16 == 14 then
              (ofOctets? ns).map (ofGroup [n % 16, a % 64, b % 64] :: ·)
            else
              match ns with
              | c :: ns =>
                if c / 64 != 2 then none
                else if n / 8 == 30 then
                  (ofOctets? ns).map (ofGroup [n % 8, a % 64, b % 64, c % 64] :: ·)
                else none
              | [] => none
          | [] => none
      | [] => none

/-! ## Names -/

def isTagMark (verbatim : Bool) (c : Char) : Bool :=
  ";/?:@&=+$.!~*\x27()%".toList.contains c || (verbatim && ",[]".toList.contains c)

def tagText? (verbatim : Bool) (cs : List Char) : Option (String × Nat) :=
  let text := cs.takeWhile fun c => isNameChar c || isTagMark verbatim c
  ((octets? text).bind ofOctets?).map fun t => (String.ofList t, text.length)

/-- A handle of tags: a name between exclamation marks, or what may be one. -/
def handleText : List Char → List Char
  | '!' :: cs =>
    let name := cs.takeWhile isNameChar
    '!' :: name ++ (cs.drop name.length).head?.toList.filter (· == '!')
  | _ => []

def isHandle (h : List Char) : Bool := 1 < h.length && h.getLast? == some '!'

/-- A tag at the head: its handle, the rest of its name, and how many characters it takes. -/
def tagParts? (cs : List Char) : Option (String × String × Nat) :=
  match cs with
  | '!' :: '<' :: rest => do
    let (text, count) ← tagText? true rest
    if count == 0 || (rest.drop count).head? != some '>' then none
    else return ("", text, count + 3)
  | _ => do
    let h := handleText cs
    let (text, count) ← tagText? false (cs.drop h.length)
    if isHandle h then
      if count == 0 then none else return (String.ofList h, text, h.length + count)
    else
      let suffix := String.ofList (h.drop 1) ++ text
      if suffix.isEmpty then return ("", "!", h.length) else return ("!", suffix, h.length + count)

end Transcribe.Data.Yaml
