/-
  Transcribe.Text.Sink — the text written so far and the column its end is at.
  - `write_write`: how a text is cut into writes does not matter.
-/

import Transcribe.Text.Ruler

namespace Transcribe.Text

structure Sink where
  ruler : Ruler
  text : String
  column : Nat

namespace Sink

def empty (r : Ruler) : Sink := ⟨r, "", 0⟩

def write (k : Sink) (t : String) : Sink :=
  { k with text := k.text ++ t, column := k.ruler.through k.column t.toList }

def writeSpaces (k : Sink) (n : Nat) : Sink := k.write (String.ofList (List.replicate n ' '))

/-- Spaces up to a column; nothing when the sink is at or behind it. -/
def padTo (k : Sink) (column : Nat) : Sink := k.writeSpaces (column - k.column)

/-- Writes `cs` with spaces in place of tabs, each up to the next multiple of `indent`. -/
def writeExpanded (indent : Nat) : Sink → List Char → Sink
  | k, [] => k
  | k, c :: cs =>
    if c == '\t' then writeExpanded indent (k.writeSpaces (indent - k.column % indent)) cs
    else writeExpanded indent (k.write (String.ofList [c])) cs

@[simp] theorem write_ruler (k : Sink) (t : String) : (k.write t).ruler = k.ruler := rfl
@[simp] theorem write_text (k : Sink) (t : String) : (k.write t).text = k.text ++ t := rfl
@[simp] theorem write_column (k : Sink) (t : String) :
    (k.write t).column = k.ruler.through k.column t.toList := rfl

theorem write_write (k : Sink) (a b : String) : (k.write a).write b = k.write (a ++ b) := by
  simp [write, Ruler.through, String.append_assoc]

end Sink

end Transcribe.Text
