/-
  Transcribe.Script.Decl — scripts of fields, methods and types.

  A C++ header has the declarations of methods only; their bodies stand in the source file.
  C++ gives access by labels, so a label goes in front of each member whose access differs
  from that of the member before it.

  What becomes of a modifier is a table for each kind of declaration and target: `fieldWord`,
  `methodWord`, `headerWord`, `typeWord`. The supertypes of a type are one list, extended and
  implemented types alike, and the types a method throws are left out.
  - `ofMethod`, `ofField`: members without their labels.
  - `ofMembers`: the members of a type, with the access of the member before them.
  - `ofDecl`: a type.
-/

import Transcribe.Script.Stmt

namespace Transcribe.Script

open Java (Access Keyword Field Method TypeHead Member TypeDecl Block)

/-! ## Fields -/

def fieldWord (s : Setting) : Keyword → Option String
  | .final => some (if s.isCpp then "const" else "readonly")
  | .static => some "static"
  | .access a => if s.isCpp then none else some (Java.word a)
  | .volatile => if s.isCpp then none else some "volatile"
  | _ => none

/-- Keywords of a field. The fields of an interface are constants of the class. -/
def fieldWords (s : Setting) (f : Field) : List String :=
  if s.isCpp && s.inInterface then ["static", "const"]
  else keywords (fieldWord s) f.vars.modifiers

def ofField (s : Setting) (f : Field) : Script :=
  framed f.span (ofVariables s (fieldWords s f) f.vars ++ token ";")

/-! ## Methods -/

/-- Whether a method is one that subclasses have to define. -/
def isPure (s : Setting) (m : Method) : Bool :=
  s.isCpp && m.body?.isNone && (s.inInterface || Java.hasKeyword m.modifiers .abstract)

def methodWord : Keyword → Option String
  | .final | .native | .synchronized | .strictfp => none
  | k => some (Java.word k)

def headerWord : Keyword → Option String
  | .static => some "static"
  | _ => none

def methodWords (s : Setting) (m : Method) : List String :=
  if s.defining then []
  else if s.isCpp then
    (if isPure s m then ["virtual"] else []) ++ keywords headerWord m.modifiers
  else keywords methodWord m.modifiers

def dropThrows (m : Method) : Script :=
  match m.thrown.getLast? with
  | some t => [.skipSpace, .drop "throws", .moveTo t.span.stop]
  | none => []

def ofMethodBody (s : Setting) (m : Method) : Script :=
  match m.body? with
  | some b =>
    if s.isCpp && !s.defining then [.write ";", .moveTo b.span.stop]
    else .copySpace :: ofStmt { s with inBody := true } (.block b.span b.body)
  | none =>
    .copySpace :: (if isPure s m then [.write " = 0"] else []) ++ [.keep ";"]

def ofReturnType (s : Setting) (m : Method) : Script :=
  m.returnType?.toList.flatMap fun t => ofMarkedType s.profile t ++ [.copyDelimiter]

def ofParameterList (s : Setting) (m : Method) : Script :=
  token "(" ++ commaList (m.parameters.map (ofParameter s)) ++ token ")"

def ofMethod (s : Setting) (m : Method) : Script :=
  framed m.span <|
    replaceModifiers m.modifiers (methodWords s m) ++ ofReturnType s m
      ++ (if s.defining then [.write (s.qualifier ++ "::")] else []) ++ ofName m.name
      ++ ofParameterList s m ++ dropThrows m ++ ofMethodBody s m

/-! ## Types -/

def typeWord : Keyword → Option String
  | .final => some "sealed"
  | .static | .strictfp => none
  | k => some (Java.word k)

def typeWords (s : Setting) (h : TypeHead) : List String :=
  if s.isCpp then [] else keywords typeWord h.modifiers

/-- The word `class` or `interface`; C++ has classes only. -/
def typeKeyword (s : Setting) (h : TypeHead) : Stroke :=
  if h.isInterface then .swap "interface" (if s.isCpp then "class" else "interface")
  else .keep "class"

def ofTypeParameters (s : Setting) (h : TypeHead) : Script :=
  if h.typeParameters.isEmpty then []
  else if s.isCpp then [.reject .genericType]
  else token "<" ++ commaList (h.typeParameters.map ofTypeParameter) ++ token ">"

def ofSupertype (s : Setting) (t : Java.Ty) : Script :=
  (if s.isCpp then [.write "public "] else []) ++ ofType s.profile t

/-- The supertypes of a type, in one list: `: B, I, J`. -/
def ofSupertypes (s : Setting) (h : TypeHead) : Script :=
  let extended := commaList (h.extended.map (ofSupertype s))
  let implemented := commaList (h.implemented.map (ofSupertype s))
  match h.extended, h.implemented with
  | [], [] => []
  | _ :: _, [] => .copySpace :: .swap "extends" ":" :: extended
  | [], _ :: _ => .copySpace :: .swap "implements" ":" :: implemented
  | _ :: _, _ :: _ =>
    .copySpace :: .swap "extends" ":" :: extended
      ++ .skipSpace :: .swap "implements" "," :: implemented

/-- Access of a member in C++. Members of an interface, and members without an access of
their own, are public. -/
def memberAccess (owner : TypeHead) (m : Member) : Access :=
  if owner.isInterface then .pub else (m.modifiers.findSome? (·.access?)).getD .pub

/-- The label in front of a member, if its access is not the current one. -/
def labelFor (s : Setting) (owner : TypeHead) (current : Access) (m : Member) : Script :=
  if s.isCpp && memberAccess owner m != current then
    [.label (memberAccess owner m) m.span.start owner.span.start]
  else []

/-- Whether a type stands by itself: it has no enclosing type other than itself. -/
def isOutermost (s : Setting) (h : TypeHead) : Bool := s.enclosing?.all (·.span == h.span)

def ofHead (s : Setting) (h : TypeHead) : Script :=
  replaceModifiers h.modifiers (typeWords s h) ++ typeKeyword s h :: .copySpace
    :: ofName h.name ++ ofTypeParameters s h ++ ofSupertypes s h ++ token "\x7b"

/-- The end of a type. In C++ a type that stands by itself takes the space behind it on its
line. -/
def ofEnd (s : Setting) (h : TypeHead) : Script :=
  .copySpace :: .swap "\x7d" (if s.isCpp then "\x7d;" else "\x7d")
    :: if s.isCpp && isOutermost s h then [.copyLine, .trail] else []

mutual

def ofMember (s : Setting) : Member → Script
  | .field f => ofField s f
  | .method m => ofMethod s m
  | .type h body =>
    framed h.span
      (ofHead s h ++ ofMembers { s with enclosing? := some h } h .priv body ++ ofEnd s h)

def ofMembers (s : Setting) (owner : TypeHead) (current : Access) : List Member → Script
  | [] => []
  | m :: ms =>
    labelFor s owner current m ++ .copySpace :: ofMember s m
      ++ ofMembers s owner (memberAccess owner m) ms

end

def ofDecl (s : Setting) (d : TypeDecl) : Script := ofMember s (.type d.head d.body)

end Transcribe.Script
