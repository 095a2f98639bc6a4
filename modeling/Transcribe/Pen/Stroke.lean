/-
  Transcribe.Pen.Stroke — writing as a list of strokes.

  What has to be done for a node is a script, a plain list of strokes. Running a script makes
  the strokes one after the other and stops at the first that cannot be made. The source
  decides what a stroke copies, never which stroke comes next.

  A node is entered where its span starts and left where it stops, and a pen that records keeps
  both offsets. A word is given with what it stands for in the source, which has to be there. A
  stroke that rejects or finds a breach can never be made; it stands in a script where the tree
  has something that the target cannot express.
  - `stroke`: makes one stroke.
  - `run`: makes the strokes of a script.
  - `run_append`: a script can be cut anywhere.
-/

import Transcribe.Pen.Basic
import Transcribe.Java.Word

namespace Transcribe

open Text (Span)

inductive Stroke where
  /-- Starts a node at the first offset of its span. -/
  | enter (span : Span)
  /-- Ends a node at the last offset of its span, or behind it if the space there was taken. -/
  | leave (span : Span)
  /-- Moves past `source` and writes `target`. -/
  | swap (source target : String)
  /-- Keeps `text` if it stands at the cursor. -/
  | keepIf (text : String)
  | write (text : String)
  | newline
  /-- Writes `count` line breaks unless the output is at the start of a line. -/
  | closeLine (count : Nat)
  | copySpace
  | copyDelimiter
  /-- Copies space and comments up to the end of the line. -/
  | copyLine
  | copyComments
  /-- Copies the comments at the cursor, or skips the space if there are none. -/
  | copyCommentsOrSkip
  | copyBreak
  | skipSpace
  /-- Skips space and comments to the end of the line and the line break. -/
  | skipLine
  | skipBlankLines
  | moveTo (offset : Nat)
  /-- Moves to the space and comments that belong to what starts at `offset`. -/
  | moveToLead (offset : Nat)
  /-- Takes the indentation that `offset` has from every line copied from here on. -/
  | dedentBy (offset : Nat)
  | undent
  /-- Writes the label of an access for a member of a class, both given by where they start. -/
  | label (access : Java.Access) (member owner : Nat)
  /-- The space behind the node on its line has been taken. -/
  | trail
  /-- As `trail` if the cursor is behind `offset`. -/
  | trailPast (offset : Nat)
  /-- Copies space and comments up to the end of the line unless they have been taken. -/
  | copyTrail
  | reject (what : Rejection)
  | breach (what : Breach)
  deriving Repr, DecidableEq

abbrev Script := List Stroke

namespace Job

def enter (j : Job) (span : Span) (p : Pen) : Except Stop Pen := do
  let p ← j.requireAt span.start p
  return { p.note with trailing := false }

def leave (j : Job) (span : Span) (p : Pen) : Except Stop Pen := do
  let p ← if p.trailing then j.requireFrom span.stop p else j.requireAt span.stop p
  return p.note

/-- A label in front of the member on its line, or on a line of its own under the class. -/
def label (j : Job) (access : Java.Access) (member owner : Nat) (p : Pen) :
    Except Stop Pen := do
  let text := Java.word access ++ ":"
  if j.source.lineNumber p.position = j.source.lineNumber member then
    let p ← j.copySpace false p
    return p.write (text ++ " ")
  else
    let p ← j.copySpace true p
    let p ← j.copyBreak p
    match j.source.column? j.ruler owner with
    | some column => return j.newline { p with sink := (p.sink.padTo column).write text }
    | none => .error ⟨.outside, p⟩

def stroke (j : Job) (p : Pen) : Stroke → Except Stop Pen
  | .enter span => j.enter span p
  | .leave span => j.leave span p
  | .swap source target => (·.write target) <$> j.expect source p
  | .keepIf text => if j.sees text p then (·.write text) <$> j.expect text p else .ok p
  | .write text => .ok (p.write text)
  | .newline => .ok (j.newline p)
  | .closeLine count => .ok (if p.sink.column = 0 then p else Nat.repeat j.newline count p)
  | .copySpace => j.copySpace false p
  | .copyDelimiter => j.copyDelimiter p
  | .copyLine => j.copySpace true p
  | .copyComments => .ok (j.copyComments p)
  | .copyCommentsOrSkip =>
    let q := j.copyComments p
    .ok (if q.movedFrom p then q else j.skipSpace false q)
  | .copyBreak => j.copyBreak p
  | .skipSpace => .ok (j.skipSpace false p)
  | .skipLine => .ok (j.skipBreak (j.skipSpace true p))
  | .skipBlankLines => .ok (j.skipBlankLines p)
  | .moveTo o => .ok (p.moveTo o)
  | .moveToLead o => .ok (p.moveTo (j.source.leadStart o))
  | .dedentBy o =>
    match j.source.column? j.ruler o with
    | some column => .ok { p with dedent := column }
    | none => .error ⟨.outside, p⟩
  | .undent => .ok { p with dedent := 0 }
  | .label access member owner => j.label access member owner p
  | .trail => .ok { p with trailing := true }
  | .trailPast o => .ok { p with trailing := o < p.position }
  | .copyTrail => if p.trailing then .ok p else j.copySpace true p
  | .reject what => j.reject what p
  | .breach what => j.breach what p

def run (j : Job) : Script → Pen → Except Stop Pen
  | [], p => .ok p
  | s :: script, p =>
    match j.stroke p s with
    | .ok q => run j script q
    | .error e => .error e

@[simp] theorem run_nil (j : Job) (p : Pen) : j.run [] p = .ok p := rfl

theorem run_cons (j : Job) (s : Stroke) (script : Script) (p : Pen) :
    j.run (s :: script) p = (j.stroke p s).bind (j.run script) := by
  rw [run]; cases j.stroke p s <;> rfl

/-- Running two scripts one after the other is running them as one. -/
theorem run_append (j : Job) (a b : Script) (p : Pen) :
    j.run (a ++ b) p = (j.run a p).bind (j.run b) := by
  induction a generalizing p with
  | nil => rfl
  | cons s a ih =>
    rw [List.cons_append, run_cons, run_cons]
    cases j.stroke p s with
    | ok q => exact ih q
    | error e => rfl

end Job

end Transcribe
