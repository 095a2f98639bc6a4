/-
  Transcribe.Script.Type — scripts of types.

  In C++ an array is `Array<T>`, and a reference inside a type carries the mark of a reference.
-/

import Transcribe.Script.Basic

namespace Transcribe.Script

open Java (Ty SimpleType TypeParameter)
open Target (Profile)

def className (p : Profile) (t : SimpleType) : String :=
  match p.renamed? (t.name.joined ".") with
  | some spelling => spelling
  | none => t.name.joined (if p.isCpp then "::" else ".")

def ofSimpleType (p : Profile) (t : SimpleType) : Script :=
  framed t.span (dropName t.name ++ [.write (className p t)])

/-- A script and the mark that a reference to `t` carries in C++. -/
def marked (p : Profile) (t : Ty) (script : Script) : Script :=
  if p.isCpp && t.isReference then script ++ [.write p.marker] else script

def keepBrackets (dims : Nat) : Script := (List.replicate dims (token "[" ++ token "]")).flatten

/-- The brackets of an array type, each pair turned into the end of an `Array<T>`. -/
def closeArrays (p : Profile) (dims : Nat) : Script :=
  [Stroke.write p.marker].intercalate
    (List.replicate dims [.skipSpace, .drop "[", .skipSpace, .drop "]", .write ">"])

mutual

def ofType (p : Profile) : Ty → Script
  | .primitive span k => framed span [.swap (Java.word k) (p.primitive (Java.word k))]
  | .simple t => ofSimpleType p t
  | .array span element dims =>
    framed span <|
      if p.isCpp then
        List.replicate dims (.write "Array<") ++ marked p element (ofType p element)
          ++ closeArrays p dims
      else ofType p element ++ keepBrackets dims
  | .generic span base arguments =>
    framed span
      (ofSimpleType p base ++ token "<" ++ commaList (ofArguments p arguments) ++ token ">")

def ofArguments (p : Profile) : List Ty → List Script
  | [] => []
  | t :: ts => marked p t (ofType p t) :: ofArguments p ts

end

def ofMarkedType (p : Profile) (t : Ty) : Script := marked p t (ofType p t)

def ofTypeParameter (t : TypeParameter) : Script := framed t.span (ofName t.name)

end Transcribe.Script
