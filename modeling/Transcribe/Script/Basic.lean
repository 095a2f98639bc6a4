/-
  Transcribe.Script.Basic — the strokes that scripts are made of.

  A node's script enters its span, does what its kind asks for and leaves the span. Between two
  tokens the space and comments of the source are copied, or skipped where the tokens on both
  sides are dropped.

  Besides the node a script depends on its `Setting`: the profile of the target, the half of a
  class that is written, the class around the node, and whether it is in a method body. Modifiers
  are not nodes of the output: keywords take the place of the whole list (`replaceModifiers`),
  behind the comments that stand between the modifiers.
-/

import Transcribe.Pen.Stroke
import Transcribe.Java.Tree

namespace Transcribe

open Text (Span)
open Java (SimpleName Name Modifier Keyword TypeHead)

namespace Stroke

/-- Keeps `t`, which has to stand at the cursor. -/
def keep (t : String) : Stroke := .swap t t

/-- Leaves `t` out, which has to stand at the cursor. -/
def drop (t : String) : Stroke := .swap t ""

end Stroke

/-- Which half of a class is written: the class itself, or the bodies of its methods behind
their qualified names. Only C++ keeps the two apart. -/
inductive Part where
  | header | source
  deriving Repr, DecidableEq

structure Setting where
  profile : Target.Profile
  part : Part
  /-- Names of the enclosing classes, in front of a method's name in a source file. -/
  qualifier : String
  /-- Whether a method body is being written. -/
  inBody : Bool
  /-- Whether declared variables carry the mark of a reference. -/
  marking : Bool
  enclosing? : Option TypeHead

namespace Setting

def ofProfile (p : Target.Profile) : Setting :=
  ⟨p, .header, "", false, false, none⟩

def isCpp (s : Setting) : Bool := s.profile.isCpp

def defining (s : Setting) : Bool := s.isCpp && s.part == .source

def inInterface (s : Setting) : Bool := s.enclosing?.any (·.isInterface)

end Setting

namespace Script

def framed (span : Span) (body : Script) : Script := .enter span :: body ++ [.leave span]

def token (t : String) : Script := [.copySpace, .keep t]

def commaList : List Script → Script
  | [] => []
  | first :: rest =>
    .copySpace :: first ++ rest.flatMap fun item => token "," ++ .copySpace :: item

def ofName (n : SimpleName) : Script := framed n.span [.keep n.text]

def dropName (n : Name) : Script :=
  [.skipSpace, .drop ".", .skipSpace].intercalate (n.segments.map fun s => [.drop s.text])

/-! ## Modifiers -/

def keywords (f : Keyword → Option String) (ms : List Modifier) : List String :=
  ms.filterMap fun m => m.keyword?.bind f

/-- Puts keywords in the place of a list of modifiers. Comments between the modifiers stay in
front of the keywords; the space behind the list stays if there are keywords. -/
def replaceModifiers (ms : List Modifier) (words : List String) : Script :=
  let text := " ".intercalate words
  match ms.getLast? with
  | none => if text = "" then [] else [.write (text ++ " ")]
  | some last =>
    ms.dropLast.flatMap (fun m => [.moveTo m.span.stop, .copyComments])
      ++ .moveTo last.span.stop
      :: if text = "" then [.copyCommentsOrSkip] else [.write text, .copyDelimiter]

/-- What becomes of a modifier apart from its declaration. -/
def loneKeyword (isCpp : Bool) : Keyword → String
  | .final => if isCpp then "const" else "readonly"
  | .abstract => if isCpp then "virtual" else "abstract"
  | .static => "static"
  | k => if isCpp then "" else Java.word k

def ofModifier (isCpp : Bool) : Modifier → Script
  | .keyword span k => framed span [.swap (Java.word k) (loneKeyword isCpp k)]
  | .tag span _ => framed span [.drop "@", .moveTo span.stop]

end Script

end Transcribe
