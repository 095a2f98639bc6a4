/-
  Transcribe.Pen.Basic — a cursor in the source and the text written so far.

  A job is a source and the profile of the target. A pen stands at an offset of the source and
  writes into a sink. Everything that is written is either copied from under the cursor, which
  then moves past it, or given by the caller. An operation that cannot go on stops with the
  reason and the pen as it stood.

  Copied space loses the indentation that is to be taken away and, if the profile asks for it,
  has its tabs expanded (`writeSpace`); what is written otherwise is written as it is. Lines are
  ended with the line break of the source. Columns of the source are measured with its tab stop,
  those of the output with the preferred indentation.
  - `requireAt`, `requireFrom`, `expect`: what has to hold at the cursor.
  - `copySpace`, `copyDelimiter`, `copyComments`, `copyBreak`: what is copied from there.
-/

import Transcribe.Pen.Failure
import Transcribe.Text.Dedent
import Transcribe.Text.Sink
import Transcribe.Target.Profile

namespace Transcribe

open Text (Span Source Sink Ruler Place byteLength isBlank isBreak)

structure Job where
  source : Source
  profile : Target.Profile

structure Pen where
  position : Nat
  sink : Sink
  /-- Columns of indentation taken from every line of copied space. -/
  dedent : Nat
  /-- Whether the node just written took the space behind it on its line. -/
  trailing : Bool
  /-- Offsets at which nodes were entered and left, if they are recorded. -/
  log? : Option (List Nat)

structure Stop where
  failure : Failure
  pen : Pen

namespace Pen

def moveTo (p : Pen) (o : Nat) : Pen := { p with position := o }

def write (p : Pen) (t : String) : Pen := { p with sink := p.sink.write t }

def note (p : Pen) : Pen := { p with log? := p.log?.map (· ++ [p.position]) }

def movedFrom (p before : Pen) : Bool := p.position != before.position

@[simp] theorem moveTo_position (p : Pen) (o : Nat) : (p.moveTo o).position = o := rfl
@[simp] theorem moveTo_sink (p : Pen) (o : Nat) : (p.moveTo o).sink = p.sink := rfl
@[simp] theorem moveTo_log? (p : Pen) (o : Nat) : (p.moveTo o).log? = p.log? := rfl
@[simp] theorem moveTo_trailing (p : Pen) (o : Nat) : (p.moveTo o).trailing = p.trailing := rfl
@[simp] theorem write_position (p : Pen) (t : String) : (p.write t).position = p.position := rfl
@[simp] theorem write_sink (p : Pen) (t : String) : (p.write t).sink = p.sink.write t := rfl
@[simp] theorem write_log? (p : Pen) (t : String) : (p.write t).log? = p.log? := rfl
@[simp] theorem write_trailing (p : Pen) (t : String) : (p.write t).trailing = p.trailing := rfl
@[simp] theorem note_position (p : Pen) : p.note.position = p.position := rfl
@[simp] theorem note_sink (p : Pen) : p.note.sink = p.sink := rfl

end Pen

namespace Job

def ruler (j : Job) : Ruler := Ruler.standard j.profile.sourceTabStop

def pen (j : Job) : Pen where
  position := 0
  sink := Sink.empty (Ruler.standard j.profile.preferredIndent)
  dedent := 0
  trailing := false
  log? := none

/-! ## Stopping -/

def stop (j : Job) (failure : Place → Failure) (p : Pen) : Except Stop Pen :=
  match j.source.place? j.ruler p.position with
  | some place => .error ⟨failure place, p⟩
  | none => .error ⟨.outside, p⟩

def reject (j : Job) (what : Rejection) (p : Pen) : Except Stop Pen := j.stop (.rejected what) p

def breach (j : Job) (what : Breach) (p : Pen) : Except Stop Pen := j.stop (.breached what) p

def requireAt (j : Job) (o : Nat) (p : Pen) : Except Stop Pen :=
  if p.position = o then .ok p
  else
    match j.source.place? j.ruler o with
    | some place => j.breach (.notAt p.position o place) p
    | none => .error ⟨.outside, p⟩

def requireFrom (j : Job) (o : Nat) (p : Pen) : Except Stop Pen :=
  if o ≤ p.position then .ok p
  else
    match j.source.place? j.ruler o with
    | some place => j.breach (.before p.position o place) p
    | none => .error ⟨.outside, p⟩

/-! ## Reading -/

def expect (j : Job) (t : String) (p : Pen) : Except Stop Pen :=
  match j.source.rest? p.position with
  | some cs =>
    if t.toList.isPrefixOf cs then .ok (p.moveTo (p.position + byteLength t.toList))
    else j.breach (.mismatch t (String.ofList (cs.take (max t.length 1)))) p
  | none =>
    if p.position ≤ j.source.size then .error ⟨.outside, p⟩ else j.breach (.mismatch t "") p

def sees (j : Job) (t : String) (p : Pen) : Bool := j.source.hasAt p.position t

def skipSpace (j : Job) (toBreak : Bool) (p : Pen) : Pen :=
  p.moveTo (j.source.skipSpace toBreak p.position)

def skipBreak (j : Job) (p : Pen) : Pen := p.moveTo (j.source.skipBreak p.position)

def skipBlankLines (j : Job) (p : Pen) : Pen := p.moveTo (j.source.skipBlankLines p.position)

/-! ## Writing -/

def newline (j : Job) (p : Pen) : Pen := p.write j.source.terminator

/-- Writes space and comments of the source, less the indentation to be taken away and with
tabs expanded if the profile asks for it. -/
def writeSpace (j : Job) (cs : List Char) (p : Pen) : Pen :=
  let cs := Text.dedent j.ruler p.dedent (if p.sink.column = 0 then some 0 else none) cs
  if j.profile.expandTabs then
    { p with sink := p.sink.writeExpanded (max j.profile.preferredIndent 1) cs }
  else p.write (String.ofList cs)

/-! ## Copying -/

/-- Copies space and comments; with `toBreak`, no further than the end of the line. -/
def copySpace (j : Job) (toBreak : Bool) (p : Pen) : Except Stop Pen :=
  let o := j.source.skipSpace toBreak p.position
  match j.source.slice? ⟨p.position, o⟩ with
  | some cs => .ok ((j.writeSpace cs p).moveTo o)
  | none => .error ⟨.outside, p⟩

/-- Copies space and comments, or writes one blank where there are none. -/
def copyDelimiter (j : Job) (p : Pen) : Except Stop Pen := do
  let q ← j.copySpace false p
  return if q.movedFrom p then q else q.write " "

/-- Copies the comments at the cursor from the first one on. Where only space follows the pen
stays as it is. -/
def copyComments (j : Job) (p : Pen) : Pen :=
  let o := j.source.skipSpace false p.position
  match j.source.slice? ⟨p.position, o⟩ with
  | some cs =>
    match cs.dropWhile (fun c => isBlank c || isBreak c) with
    | [] => p
    | c :: rest => (j.writeSpace (c :: rest) p).moveTo o
  | none => p

def copyBreak (j : Job) (p : Pen) : Except Stop Pen :=
  let o := j.source.skipBreak p.position
  match j.source.slice? ⟨p.position, o⟩ with
  | some cs => .ok ((p.write (String.ofList cs)).moveTo o)
  | none => .error ⟨.outside, p⟩

end Job

end Transcribe
