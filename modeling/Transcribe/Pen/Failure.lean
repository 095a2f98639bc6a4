/-
  Transcribe.Pen.Failure — why writing stops.

  A rejection says that the target has no way to express a construct of the source. A breach
  says that the cursor is not where the tree says it has to be; no tree read from its own text
  causes one. Only `Rejection.text` and `Breach.text` put causes into words.
-/

import Transcribe.Text.Source

namespace Transcribe

open Text (Place)

inductive Rejection where
  | staticImport
  | genericType
  | labeledBreak
  | labeledContinue
  | parameterDims
  | variableDims
  | bareArray
  | manyDims
  | unsignedShift
  | unsignedShiftAssign
  | instanceOf
  /-- Any other, in the caller's words. -/
  | stated (text : String)
  deriving Repr, DecidableEq

/-- A broken promise about the cursor. -/
inductive Breach where
  /-- Another text stands at the cursor. -/
  | mismatch (expected found : String)
  /-- The cursor is not at the offset required. -/
  | notAt (cursor required : Nat) (place : Place)
  /-- The cursor is before the least offset allowed. -/
  | before (cursor least : Nat) (place : Place)
  /-- A block that belongs to no method body. -/
  | strayBlock
  /-- Any other, in the caller's words. -/
  | stated (text : String)
  deriving Repr, DecidableEq

inductive Failure where
  | rejected (what : Rejection) (place : Place)
  | breached (what : Breach) (place : Place)
  /-- The text was cut where no character starts. -/
  | outside
  deriving Repr, DecidableEq

namespace Rejection

def text : Rejection → String
  | .staticImport => "static import"
  | .genericType => "generic type declaration"
  | .labeledBreak => "labeled break"
  | .labeledContinue => "labeled continue"
  | .parameterDims => "array dimensions after a parameter name"
  | .variableDims => "array dimensions after a variable name"
  | .bareArray => "array initializer without `new`; write `new T[] \x7b ... \x7d` instead"
  | .manyDims => "multi-dimensional array creation"
  | .unsignedShift => "`>>>` has no C++ equivalent"
  | .unsignedShiftAssign => "`>>>=` has no C++ equivalent"
  | .instanceOf => "`instanceof`"
  | .stated t => t

end Rejection

namespace Breach

def text : Breach → String
  | .mismatch expected found => "expected `" ++ expected ++ "` but found `" ++ found ++ "`"
  | .notAt cursor required place =>
    "cursor at " ++ toString cursor ++ " but expected " ++ toString required ++ " (" ++ place.label
      ++ ")"
  | .before cursor least place =>
    "cursor at " ++ toString cursor ++ " but expected at least " ++ toString least ++ " ("
      ++ place.label ++ ")"
  | .strayBlock => "block written outside a method implementation"
  | .stated t => t

end Breach

end Transcribe
