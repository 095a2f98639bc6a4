/-
  Transcribe.Java.Tree — syntax trees of the Java subset.

  Every node carries the span of its tokens, from the first to the last, without the space and
  comments around them. Words and operators are members of their sets; a literal keeps its
  text, and an annotation its name but not its arguments. Dimensions are kept as a number where
  the brackets stand: behind a type, a declared name or the lengths of a new array.
-/

import Transcribe.Text.Span
import Transcribe.Java.Word

namespace Transcribe.Java

open Text (Span)

/-! ## Names and modifiers -/

structure SimpleName where
  span : Span
  text : String
  deriving Repr, DecidableEq

structure Name where
  span : Span
  segments : List SimpleName
  deriving Repr, DecidableEq

namespace Name

def joined (n : Name) (separator : String) : String :=
  separator.intercalate (n.segments.map (·.text))

def last (n : Name) : String := ((n.segments.map (·.text)).getLast?).getD ""

/-- The segments before the last, joined; none for a name of one segment. -/
def qualifier? (n : Name) (separator : String) : Option String :=
  if n.segments.length < 2 then none
  else some (separator.intercalate (n.segments.dropLast.map (·.text)))

end Name

inductive Modifier where
  | keyword (span : Span) (word : Keyword)
  | tag (span : Span) (name : Name)
  deriving Repr, DecidableEq

namespace Modifier

def span : Modifier → Span
  | .keyword s _ => s
  | .tag s _ => s

def keyword? : Modifier → Option Keyword
  | .keyword _ k => some k
  | .tag _ _ => none

def access? : Modifier → Option Access
  | .keyword _ (.access a) => some a
  | _ => none

end Modifier

def hasKeyword (ms : List Modifier) (k : Keyword) : Bool := ms.any fun m => m.keyword? == some k

/-! ## Types -/

structure SimpleType where
  span : Span
  name : Name
  deriving Repr, DecidableEq

inductive Ty where
  | primitive (span : Span) (kind : Primitive)
  | simple (type : SimpleType)
  | array (span : Span) (element : Ty) (dims : Nat)
  | generic (span : Span) (base : SimpleType) (arguments : List Ty)

namespace Ty

def span : Ty → Span
  | .primitive s _ => s
  | .simple t => t.span
  | .array s _ _ => s
  | .generic s _ _ => s

/-- Primitive types, `void` included, are values; all others are references. -/
def isReference : Ty → Bool
  | .primitive _ _ => false
  | _ => true

end Ty

structure TypeParameter where
  span : Span
  name : SimpleName

/-! ## Expressions -/

inductive LiteralKind where
  | integer | float | character | string | boolean | null
  deriving Repr, DecidableEq

/-- Expressions. An array is created with lengths (`new int[n][]`) or with its elements
(`new int[] { 1, 2 }`); a call has a receiver or none. -/
inductive Expr where
  | literal (span : Span) (kind : LiteralKind) (token : String)
  | name (name : SimpleName)
  | self (span : Span)
  | field (span : Span) (target : Expr) (name : SimpleName)
  | call (span : Span) (name : SimpleName) (arguments : List Expr)
  | invoke (span : Span) (target : Expr) (name : SimpleName) (arguments : List Expr)
  | create (span : Span) (type : Ty) (arguments : List Expr)
  | newSized (span : Span) (element : Ty) (lengths : List Expr) (extraDims : Nat)
  | newListed (span : Span) (element : Ty) (extraDims : Nat) (listSpan : Span) (items : List Expr)
  | arrayInit (span : Span) (items : List Expr)
  | index (span : Span) (array : Expr) (position : Expr)
  | assign (span : Span) (left : Expr) (op : AssignOp) (right : Expr)
  | binary (span : Span) (left : Expr) (op : InfixOp) (right : Expr)
  | instanceOf (span : Span) (operand : Expr) (type : Ty)
  | prefixed (span : Span) (op : PrefixOp) (operand : Expr)
  | postfixed (span : Span) (operand : Expr) (op : PostfixOp)
  | conditional (span : Span) (condition : Expr) (yes : Expr) (no : Expr)
  | paren (span : Span) (inner : Expr)
  | cast (span : Span) (type : Ty) (operand : Expr)

def Expr.span : Expr → Span
  | .literal s _ _ | .self s | .field s _ _ | .call s _ _ | .invoke s _ _ _ | .create s _ _
  | .newSized s _ _ _ | .newListed s _ _ _ _ | .arrayInit s _ | .index s _ _ | .assign s _ _ _
  | .binary s _ _ _ | .instanceOf s _ _ | .prefixed s _ _ | .postfixed s _ _
  | .conditional s _ _ _ | .paren s _ | .cast s _ _ => s
  | .name n => n.span

/-! ## Variables -/

/-- One declared variable of a field or local declaration: `x`, `y = 2`, `z[] = {}`. -/
structure Fragment where
  span : Span
  name : SimpleName
  extraDims : Nat
  init? : Option Expr

structure Variables where
  modifiers : List Modifier
  type : Ty
  fragments : List Fragment

structure Parameter where
  span : Span
  modifiers : List Modifier
  type : Ty
  name : SimpleName
  extraDims : Nat

/-! ## Statements -/

inductive ForInit where
  | exprs (es : List Expr)
  | locals (span : Span) (vars : Variables)

inductive Stmt where
  | block (span : Span) (body : List Stmt)
  | locals (span : Span) (vars : Variables)
  | expr (span : Span) (e : Expr)
  | ifThen (span : Span) (condition : Expr) (yes : Stmt)
  | ifElse (span : Span) (condition : Expr) (yes : Stmt) (no : Stmt)
  | whileLoop (span : Span) (condition : Expr) (body : Stmt)
  | doLoop (span : Span) (body : Stmt) (condition : Expr)
  | forLoop (span : Span) (init : ForInit) (condition? : Option Expr) (updates : List Expr)
      (body : Stmt)
  | forEach (span : Span) (item : Parameter) (items : Expr) (body : Stmt)
  | ret (span : Span) (value? : Option Expr)
  | leave (span : Span) (label? : Option SimpleName)
  | next (span : Span) (label? : Option SimpleName)
  | throwing (span : Span) (e : Expr)
  | empty (span : Span)

def Stmt.span : Stmt → Span
  | .block s _ | .locals s _ | .expr s _ | .ifThen s _ _ | .ifElse s _ _ _ | .whileLoop s _ _
  | .doLoop s _ _ | .forLoop s _ _ _ _ | .forEach s _ _ _ | .ret s _ | .leave s _ | .next s _
  | .throwing s _ | .empty s => s

structure Block where
  span : Span
  body : List Stmt

/-! ## Declarations -/

structure Package where
  span : Span
  name : Name

structure Import where
  span : Span
  isStatic : Bool
  name : Name
  onDemand : Bool

structure Field where
  span : Span
  vars : Variables

/-- A method; a constructor has no return type. -/
structure Method where
  span : Span
  modifiers : List Modifier
  returnType? : Option Ty
  name : SimpleName
  parameters : List Parameter
  thrown : List Ty
  body? : Option Block

structure TypeHead where
  span : Span
  modifiers : List Modifier
  isInterface : Bool
  name : SimpleName
  typeParameters : List TypeParameter
  extended : List Ty
  implemented : List Ty
  bodySpan : Span

inductive Member where
  | field (f : Field)
  | method (m : Method)
  | type (head : TypeHead) (body : List Member)

namespace Member

def span : Member → Span
  | .field f => f.span
  | .method m => m.span
  | .type h _ => h.span

def modifiers : Member → List Modifier
  | .field f => f.vars.modifiers
  | .method m => m.modifiers
  | .type h _ => h.modifiers

end Member

structure TypeDecl where
  head : TypeHead
  body : List Member

structure CompilationUnit where
  span : Span
  package? : Option Package
  imports : List Import
  types : List TypeDecl

end Transcribe.Java
