/-
  Transcribe.Data.Yaml.Value — what a node can be read as.

  Only a plain scalar can be anything but a text. A tag makes a literal scalar a number or a
  truth value too, and a tag with a name of its own gives a word that has nothing behind it.
-/

import Transcribe.Data.Yaml.Node
import Transcribe.Data.Yaml.Word

namespace Transcribe.Data.Yaml

def standardTag (name : String) : String := "tag:yaml.org,2002:" ++ name

/-- Whether a plain scalar is null. Behind the tag of null it has to be spelled out. -/
def isNull : Yaml → Bool
  | .scalar .plain none text => text.isEmpty || Word.isNull text
  | .scalar .plain (some tag) text => tag == standardTag "null" && Word.isNull text
  | _ => false

def typed? (name : String) : Yaml → Option String
  | .scalar .plain tag? text => if tag? == some (standardTag "null") then none else some text
  | .scalar .literal tag? text => if tag? == some (standardTag name) then some text else none
  | _ => none

def nat? (y : Yaml) : Option Nat := (y.typed? "int").bind Word.nat?

def bool? (y : Yaml) : Option Bool := (y.typed? "bool").bind Word.bool?

/-- The name of a tag that no handle but `!` stands for. -/
def tagName? (tag : String) : Option String :=
  match tag.toList with
  | '!' :: [] => some "!"
  | '!' :: name => some (String.ofList name)
  | _ => none

/-- A word: a text, or the name of a tag with nothing behind it. -/
def word? : Yaml → Option String
  | .scalar style tag? text =>
    if style == .plain && tag? == some (standardTag "null") then none
    else
      match tag?.bind tagName? with
      | none => some text
      | some name =>
        if style == .plain && (text.isEmpty || Word.isNull text) then some name else none
  | .mapping _ => none

/-- The entries of a mapping. Nothing at all is an empty one. -/
def entries? : Yaml → Option (List (String × Yaml))
  | .mapping entries => some entries
  | .scalar style _ text => if style == .plain && text.isEmpty then some [] else none

end Transcribe.Data.Yaml
