/-
  Transcribe.Target.Overrides — changes to a profile.

  Every field is optional; what is not given stays as it is in the profile of the language.
  Tables are merged entry by entry. Overrides that name another language than the target's are
  refused, and so are widths of 0; the first fault in the order of the fields is reported.
-/

import Transcribe.Target.Profile

namespace Transcribe.Target

structure Overrides where
  language? : Option Language := none
  pointerStyle? : Option PointerStyle := none
  preferredIndent? : Option Nat := none
  sourceTabStop? : Option Nat := none
  expandTabs? : Option Bool := none
  primitiveTypes : List (String × String) := []
  typeRenames : List (String × String) := []
  deriving Repr, DecidableEq

inductive ProfileError where
  /-- The text of a profile cannot be read. -/
  | unreadable
  | otherLanguage (given target : Language)
  | zeroIndent
  | zeroTabStop
  deriving Repr, DecidableEq

def ProfileError.text : ProfileError → String
  | .unreadable => "invalid profile"
  | .otherLanguage given target =>
    "profile is for `" ++ given.word ++ "` but the target is `" ++ target.word ++ "`"
  | .zeroIndent => "preferred_indent must be at least 1"
  | .zeroTabStop => "source_tab_stop must be at least 1"

namespace Overrides

def ofProfile (p : Profile) : Overrides where
  language? := some p.language
  pointerStyle? := some p.pointerStyle
  preferredIndent? := some p.preferredIndent
  sourceTabStop? := some p.sourceTabStop
  expandTabs? := some p.expandTabs
  primitiveTypes := p.primitiveTypes.entries
  typeRenames := p.typeRenames.entries

/-- The first field that a profile cannot have. -/
def fault? (o : Overrides) (p : Profile) : Option ProfileError :=
  match o.language? with
  | some l => if l = p.language then lengthFault? else some (.otherLanguage l p.language)
  | none => lengthFault?
where
  /-- The first width that is 0. -/
  lengthFault? : Option ProfileError :=
    if o.preferredIndent? = some 0 then some .zeroIndent
    else if o.sourceTabStop? = some 0 then some .zeroTabStop
    else none

def apply (o : Overrides) (p : Profile) : Except ProfileError Profile :=
  match o.fault? p with
  | some fault => .error fault
  | none => .ok {
      language := p.language
      pointerStyle := o.pointerStyle?.getD p.pointerStyle
      preferredIndent := o.preferredIndent?.getD p.preferredIndent
      sourceTabStop := o.sourceTabStop?.getD p.sourceTabStop
      expandTabs := o.expandTabs?.getD p.expandTabs
      primitiveTypes := p.primitiveTypes.extend o.primitiveTypes
      typeRenames := p.typeRenames.extend o.typeRenames }

end Overrides

end Transcribe.Target
