/-
  Transcribe.Script.Stmt — scripts of variables and statements.

  In C++ the mark of a reference stands in front of each declared variable, not behind the
  type they share.
-/

import Transcribe.Script.Expr

namespace Transcribe.Script

open Java (Expr Stmt Fragment Variables Parameter ForInit SimpleName)

/-! ## Variables -/

def needsMark (s : Setting) (t : Java.Ty) : Bool := s.isCpp && t.isReference

def isArrayInit : Expr → Bool
  | .arrayInit _ _ => true
  | _ => false

def ofInit (s : Setting) : Option Expr → Script
  | none => []
  | some e =>
    token "=" ++ .copySpace ::
      if s.isCpp && isArrayInit e then [.reject .bareArray] else ofExpr s e

def ofFragment (s : Setting) (f : Fragment) : Script :=
  framed f.span <|
    (if s.marking then [.write s.profile.marker] else []) ++ ofName f.name
      ++ if f.extraDims > 0 then [.reject .variableDims] else ofInit s f.init?

def ofVariables (s : Setting) (words : List String) (v : Variables) : Script :=
  replaceModifiers v.modifiers words ++ ofType s.profile v.type
    ++ commaList (v.fragments.map (ofFragment { s with marking := needsMark s v.type }))

/-- Local variables: `final` becomes `const`, every other modifier goes. -/
def ofLocals (s : Setting) (v : Variables) : Script :=
  ofVariables s (if Java.hasKeyword v.modifiers .final then ["const"] else []) v

def parameterWord (s : Setting) : Java.Keyword → Option String
  | .final => if s.isCpp then some "const" else none
  | _ => none

def ofParameter (s : Setting) (p : Parameter) : Script :=
  framed p.span <|
    replaceModifiers p.modifiers (keywords (parameterWord s) p.modifiers)
      ++ ofType s.profile p.type ++ .copySpace
      :: (if needsMark s p.type then [.write s.profile.marker] else []) ++ ofName p.name
      ++ if p.extraDims > 0 then [.reject .parameterDims] else []

/-! ## Statements -/

def ofForInit (s : Setting) : ForInit → List Script
  | .exprs es => ofExprs s es
  | .locals span vars => [framed span (ofLocals s vars)]

def ofCondition (s : Setting) (e : Expr) : Script :=
  token "(" ++ .copySpace :: ofExpr s e ++ token ")"

/-- A `break` or `continue`; the targets have no labels. -/
def ofJump (word : String) (rejected : Rejection) : Option SimpleName → Script
  | some _ => [.reject rejected]
  | none => .keep word :: token ";"

/-- The head of a `for` over a collection: `foreach (T x in xs)` in C#. -/
def forEachHead (s : Setting) (item : Parameter) (items : Expr) : Script :=
  if s.isCpp then
    .keep "for" :: token "(" ++ .copySpace :: ofParameter s item ++ token ":" ++ .copySpace
      :: ofExpr s items ++ token ")"
  else
    .swap "for" "foreach" :: token "(" ++ .copySpace :: ofParameter s item
      ++ [.copyDelimiter, .swap ":" "in", .copyDelimiter] ++ ofExpr s items ++ token ")"

mutual

def ofStmt (s : Setting) : Stmt → Script
  | .block span body =>
    framed span <|
      if s.inBody then .keep "\x7b" :: ofStmts s body ++ token "\x7d" else [.breach .strayBlock]
  | .locals span vars => framed span (ofLocals s vars ++ token ";")
  | .expr span e => framed span (ofExpr s e ++ token ";")
  | .ifThen span condition yes =>
    framed span (.keep "if" :: ofCondition s condition ++ .copySpace :: ofStmt s yes)
  | .ifElse span condition yes no =>
    framed span (.keep "if" :: ofCondition s condition ++ .copySpace :: ofStmt s yes
      ++ token "else" ++ .copySpace :: ofStmt s no)
  | .whileLoop span condition body =>
    framed span (.keep "while" :: ofCondition s condition ++ .copySpace :: ofStmt s body)
  | .doLoop span body condition =>
    framed span (.keep "do" :: .copySpace :: ofStmt s body ++ token "while"
      ++ ofCondition s condition ++ token ";")
  | .forLoop span init condition? updates body =>
    framed span (.keep "for" :: token "(" ++ commaList (ofForInit s init) ++ token ";"
      ++ condition?.toList.flatMap (fun e => .copySpace :: ofExpr s e) ++ token ";"
      ++ commaList (ofExprs s updates) ++ token ")" ++ .copySpace :: ofStmt s body)
  | .forEach span item items body =>
    framed span (forEachHead s item items ++ .copySpace :: ofStmt s body)
  | .ret span value? =>
    framed span (.keep "return" :: value?.toList.flatMap (fun e => .copySpace :: ofExpr s e)
      ++ token ";")
  | .leave span label? => framed span (ofJump "break" .labeledBreak label?)
  | .next span label? => framed span (ofJump "continue" .labeledContinue label?)
  | .throwing span e => framed span (.keep "throw" :: .copySpace :: ofExpr s e ++ token ";")
  | .empty span => framed span [.keep ";"]

def ofStmts (s : Setting) : List Stmt → Script
  | [] => []
  | t :: ts => .copySpace :: ofStmt s t ++ ofStmts s ts

end

end Transcribe.Script
