/-
  Transcribe.Script.Expr — scripts of expressions.

  Most expressions are their tokens with space between. In C++ a member of a class is selected by
  `::`, any other by `->`, and a new array is `new Array<T>(n)` or, with its items,
  `new Array<T>({ … })`. What C++ has no operator for is rejected where the operator stands.
-/

import Transcribe.Script.Type

namespace Transcribe.Script

open Java (Expr SimpleName)
open Target (Profile)

/-- Whether a receiver names a class: it is the enclosing class, or starts with a capital. -/
def namesClass (s : Setting) : Expr → Bool
  | .name n => s.enclosing?.any (·.name.text == n.text) || n.text.toList.head?.any Char.isUpper
  | _ => false

def separator (s : Setting) (receiver : Expr) : String :=
  if s.isCpp then if namesClass s receiver then "::" else "->" else "."

def selector (s : Setting) (receiver : Expr) : Script :=
  [.copySpace, .swap "." (separator s receiver), .copySpace]

def newWord : Script := [.keep "new", .copyDelimiter]

/-- What `new T[` becomes in C++: `new Array<T>(`. -/
def openArray (p : Profile) (element : Java.Ty) : Script :=
  newWord ++ .write "Array<" :: ofMarkedType p element
    ++ [.write ">", .skipSpace, .swap "[" "("]

/-- What `new T[n]` becomes in C++: `new Array<T>(n)`. -/
def newSizedCpp (p : Profile) (element : Java.Ty) (lengths : List Script) (extraDims : Nat) :
    Script :=
  if lengths.length + extraDims > 1 then [.reject .manyDims]
  else
    match lengths with
    | length :: _ => openArray p element ++ .copySpace :: length ++ [.copySpace, .swap "]" ")"]
    | [] => openArray p element ++ [.skipSpace, .drop "]", .write ")"]

def newSizedCsharp (p : Profile) (element : Java.Ty) (lengths : List Script) (extraDims : Nat) :
    Script :=
  newWord ++ ofType p element
    ++ lengths.flatMap (fun length => token "[" ++ .copySpace :: length ++ token "]")
    ++ keepBrackets extraDims

/-- What `new T[] { … }` becomes in C++: `new Array<T>({ … })`. -/
def newListedCpp (p : Profile) (element : Java.Ty) (extraDims : Nat) (items : Script) : Script :=
  if extraDims > 1 then [.reject .manyDims]
  else openArray p element ++ [.skipSpace, .drop "]", .skipSpace] ++ items ++ [.write ")"]

def newListedCsharp (p : Profile) (element : Java.Ty) (extraDims : Nat) (items : Script) :
    Script :=
  newWord ++ ofType p element ++ keepBrackets extraDims ++ .copySpace :: items

def ofArgumentList (arguments : List Script) : Script :=
  token "(" ++ commaList arguments ++ token ")"

/-- Items in braces, with a comma behind the last if there is one. -/
def ofItems (items : List Script) : Script :=
  .keep "\x7b" :: commaList items ++ [.copySpace, .keepIf ","] ++ token "\x7d"

def ofOperator (left : Script) (op : String) (rejected? : Option Rejection) (right : Script) :
    Script :=
  match rejected? with
  | some r => left ++ [.copySpace, .reject r]
  | none => left ++ [.copySpace, .keep op, .copySpace] ++ right

def rejectedAssign? (s : Setting) (op : Java.AssignOp) : Option Rejection :=
  if s.isCpp && op == .unsignedRightShift then some .unsignedShiftAssign else none

def rejectedInfix? (s : Setting) (op : Java.InfixOp) : Option Rejection :=
  if s.isCpp && op == .unsignedRightShift then some .unsignedShift else none

/-- The spelling of a literal: only `null` differs. -/
def literalWord (s : Setting) (kind : Java.LiteralKind) (word : String) : Stroke :=
  if s.isCpp && kind == .null then .swap "null" "nullptr" else .keep word

mutual

def ofExpr (s : Setting) : Expr → Script
  | .literal span kind word => framed span [literalWord s kind word]
  | .name n => ofName n
  | .self span => framed span [.keep "this"]
  | .field span target name =>
    framed span (ofExpr s target ++ selector s target ++ ofName name)
  | .call span name arguments =>
    framed span (ofName name ++ ofArgumentList (ofExprs s arguments))
  | .invoke span target name arguments =>
    framed span (ofExpr s target ++ selector s target ++ ofName name
      ++ ofArgumentList (ofExprs s arguments))
  | .create span type arguments =>
    framed span (newWord ++ ofType s.profile type ++ ofArgumentList (ofExprs s arguments))
  | .newSized span element lengths extraDims =>
    framed span <|
      if s.isCpp then newSizedCpp s.profile element (ofExprs s lengths) extraDims
      else newSizedCsharp s.profile element (ofExprs s lengths) extraDims
  | .newListed span element extraDims listSpan items =>
    framed span <|
      let list := framed listSpan (ofItems (ofExprs s items))
      if s.isCpp then newListedCpp s.profile element extraDims list
      else newListedCsharp s.profile element extraDims list
  | .arrayInit span items => framed span (ofItems (ofExprs s items))
  | .index span array position =>
    framed span (ofExpr s array ++ token "[" ++ .copySpace :: ofExpr s position ++ token "]")
  | .assign span left op right =>
    framed span (ofOperator (ofExpr s left) (Java.word op) (rejectedAssign? s op)
      (ofExpr s right))
  | .binary span left op right =>
    framed span (ofOperator (ofExpr s left) (Java.word op) (rejectedInfix? s op)
      (ofExpr s right))
  | .instanceOf span operand type =>
    framed span <|
      if s.isCpp then [.reject .instanceOf]
      else ofExpr s operand ++ [.copySpace, .swap "instanceof" "is", .copySpace]
        ++ ofType s.profile type
  | .prefixed span op operand =>
    framed span (.keep (Java.word op) :: .copySpace :: ofExpr s operand)
  | .postfixed span operand op => framed span (ofExpr s operand ++ token (Java.word op))
  | .conditional span condition yes no =>
    framed span (ofExpr s condition ++ token "?" ++ .copySpace :: ofExpr s yes
      ++ token ":" ++ .copySpace :: ofExpr s no)
  | .paren span inner => framed span (.keep "(" :: .copySpace :: ofExpr s inner ++ token ")")
  | .cast span type operand =>
    framed span (.keep "(" :: .copySpace :: ofMarkedType s.profile type ++ token ")"
      ++ .copySpace :: ofExpr s operand)

def ofExprs (s : Setting) : List Expr → List Script
  | [] => []
  | e :: es => ofExpr s e :: ofExprs s es

end

end Transcribe.Script
