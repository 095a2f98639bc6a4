/-
  Transcribe.Output.Batch — from source texts to files.

  Sources are independent: what becomes of one does not depend on the others.
-/

import Transcribe.Output.Basic
import Transcribe.Problem

namespace Transcribe.Output

structure Input where
  name : String
  text : String
  deriving Repr, DecidableEq

structure Outcome where
  name : String
  result : Except Problem (List File)

def transcribe (p : Target.Profile) (i : Input) : Except Problem (List File) :=
  match Java.parse i.name i.text with
  | .error f => .error (.parsing f)
  | .ok parsed =>
    match (Job.mk parsed.source p).files parsed.unit with
    | .ok files => .ok files
    | .error f => .error (.writing f)

def batch (p : Target.Profile) (inputs : List Input) : List Outcome :=
  inputs.map fun i => ⟨i.name, transcribe p i⟩

end Transcribe.Output
