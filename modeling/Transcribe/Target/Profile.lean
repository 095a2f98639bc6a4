/-
  Transcribe.Target.Profile — the conventions of a target language.

  A profile says how references are marked, how wide indentation and tabs are, and how
  primitive types and class names are spelled in the target. The tab stop is that of the source,
  the preferred indentation that of the output. Each language has a profile of its own
  (`Profile.default`), which overrides can change.
-/

import Transcribe.Target.Table
import Transcribe.Java.Word

namespace Transcribe.Target

inductive Language where
  | cpp | csharp
  deriving Repr, DecidableEq

namespace Language

def word : Language → String
  | .cpp => "cpp"
  | .csharp => "csharp"

def ofWord? : String → Option Language
  | "cpp" => some .cpp
  | "csharp" => some .csharp
  | _ => none

def extension : Language → String
  | .cpp => "h"
  | .csharp => "cs"

/-- Extension of the file that holds a type's method bodies, where they stand apart. -/
def sourceExtension? : Language → Option String
  | .cpp => some "cpp"
  | .csharp => none

@[simp] theorem ofWord?_word (l : Language) : ofWord? l.word = some l := by cases l <;> rfl

end Language

inductive PointerStyle where
  | star | caret | none
  deriving Repr, DecidableEq

namespace PointerStyle

def word : PointerStyle → String
  | .star => "star"
  | .caret => "caret"
  | .none => "none"

def ofWord? : String → Option PointerStyle
  | "star" => some .star
  | "caret" => some .caret
  | "none" => some .none
  | _ => Option.none

def marker : PointerStyle → String
  | .star => "*"
  | .caret => "^"
  | .none => ""

@[simp] theorem ofWord?_word (p : PointerStyle) : ofWord? p.word = some p := by cases p <;> rfl

end PointerStyle

structure Profile where
  language : Language
  pointerStyle : PointerStyle
  preferredIndent : Nat
  sourceTabStop : Nat
  expandTabs : Bool
  /-- Target spelling of primitive types. -/
  primitiveTypes : Table
  /-- Target spelling of classes. -/
  typeRenames : Table

namespace Profile

def cpp : Profile where
  language := .cpp
  pointerStyle := .star
  preferredIndent := 4
  sourceTabStop := 4
  expandTabs := false
  primitiveTypes := Table.ofList
    [("boolean", "bool"), ("byte", "char"), ("char", "wchar_t"), ("short", "short"),
     ("int", "int"), ("long", "long long"), ("float", "float"), ("double", "double"),
     ("void", "void")]
  typeRenames := Table.empty

def csharp : Profile where
  language := .csharp
  pointerStyle := .none
  preferredIndent := 4
  sourceTabStop := 4
  expandTabs := false
  primitiveTypes := Table.ofList
    [("boolean", "bool"), ("byte", "sbyte"), ("char", "char"), ("short", "short"),
     ("int", "int"), ("long", "long"), ("float", "float"), ("double", "double"),
     ("void", "void")]
  typeRenames := Table.ofList [("String", "string"), ("Object", "object")]

def default : Language → Profile
  | .cpp => cpp
  | .csharp => csharp

def isCpp (p : Profile) : Bool := p.language == .cpp

def marker (p : Profile) : String := p.pointerStyle.marker

/-- Spelling of a primitive type; one that the table does not name keeps its own. -/
def primitive (p : Profile) (keyword : String) : String :=
  (p.primitiveTypes.get? keyword).getD keyword

def lastSegment (dotted : String) : String :=
  String.ofList (dotted.toList.reverse.takeWhile (· != '.')).reverse

/-- Spelling of a class that is renamed: by its dotted name, else by the last segment. -/
def renamed? (p : Profile) (dotted : String) : Option String :=
  match p.typeRenames.get? dotted with
  | some spelling => some spelling
  | none => p.typeRenames.get? (lastSegment dotted)

@[simp] theorem default_language (l : Language) : (default l).language = l := by cases l <;> rfl

end Profile

end Transcribe.Target
