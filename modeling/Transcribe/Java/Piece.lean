/-
  Transcribe.Java.Piece — syntax trees out of derivations.

  Each node of a derivation becomes one piece of syntax, made from the pieces of its parts
  alone. A piece's span is the node's without the space and comments at its ends.

  A piece is a part of a tree by its kind: a name, a type, an expression, the types of a clause.
  A rule takes the pieces it asks for in their order (`takeTypes` and its kin) and gives its own;
  words that stand for nothing beyond themselves leave no piece. A token is made from its text:
  keywords and operators are looked up among the words of their set, and dimensions are counted.
  - `assemble?`: the piece of one node.
  - `piecesOf`: the pieces of a derivation.
-/

import Transcribe.Java.Precedence
import Transcribe.Java.Rule
import Transcribe.Text.Source

namespace Transcribe.Java

open Text (Span Source)
open Grammar (Derivation)

inductive Selector where
  | call (span : Span) (name : SimpleName) (arguments : List Expr)
  | field (span : Span) (name : SimpleName)
  | index (span : Span) (position : Expr)
  | step (span : Span) (op : PostfixOp)

namespace Selector

def span : Selector → Span
  | .call s _ _ => s
  | .field s _ => s
  | .index s _ => s
  | .step s _ => s

def apply (e : Expr) (s : Selector) : Expr :=
  let span := e.span.join s.span
  match s with
  | .call _ name arguments => .invoke span e name arguments
  | .field _ name => .field span e name
  | .index _ position => .index span e position
  | .step _ op => .postfixed span e op

end Selector

inductive Piece where
  /-- A word that decides between variants. -/
  | mark (rule : Rule)
  | name (n : SimpleName)
  | path (n : Name)
  | modifier (m : Modifier)
  | type (t : Ty)
  /-- The types of a clause, or type arguments. -/
  | types (rule : Rule) (ts : List Ty)
  | dims (n : Nat)
  | typeParameter (p : TypeParameter)
  | typeParameters (ps : List TypeParameter)
  | member (m : Member)
  | members (span : Span) (ms : List Member)
  | parameter (p : Parameter)
  | parameters (ps : List Parameter)
  | fragment (f : Fragment)
  | declared (span : Span) (v : Variables)
  | stmt (s : Stmt)
  | forInit (i : ForInit)
  | forUpdate (es : List Expr)
  | expr (e : Expr)
  | assignOp (op : AssignOp)
  | infixOp (op : InfixOp)
  | prefixOp (op : PrefixOp)
  | test (span : Span) (t : Ty)
  | selector (s : Selector)
  | arguments (es : List Expr)
  | length (e : Expr)
  | package (p : Package)
  | importing (i : Import)
  | unit (u : CompilationUnit)

namespace Piece

def name? : Piece → Option SimpleName
  | .name n => some n
  | _ => none

def type? : Piece → Option Ty
  | .type t => some t
  | _ => none

def typeParameter? : Piece → Option TypeParameter
  | .typeParameter p => some p
  | _ => none

def member? : Piece → Option Member
  | .member m => some m
  | _ => none

def typeDecl? : Piece → Option TypeDecl
  | .member (.type h body) => some ⟨h, body⟩
  | _ => none

def parameter? : Piece → Option Parameter
  | .parameter p => some p
  | _ => none

def fragment? : Piece → Option Fragment
  | .fragment f => some f
  | _ => none

def stmt? : Piece → Option Stmt
  | .stmt s => some s
  | _ => none

/-- A name alone is an expression. -/
def expr? : Piece → Option Expr
  | .expr e => some e
  | .name n => some (.name n)
  | _ => none

def selector? : Piece → Option Selector
  | .selector s => some s
  | _ => none

/-! ## Taking pieces off the front -/

def takeModifiers : List Piece → List Modifier × List Piece
  | .modifier m :: ps => (m :: (takeModifiers ps).1, (takeModifiers ps).2)
  | ps => ([], ps)

def takeTypeParameters : List Piece → List TypeParameter × List Piece
  | .typeParameters tps :: ps => (tps, ps)
  | ps => ([], ps)

def takeTypes (r : Rule) : List Piece → List Ty × List Piece
  | .types r' ts :: ps => if r' = r then (ts, ps) else ([], .types r' ts :: ps)
  | ps => ([], ps)

def takeDims : List Piece → Nat × List Piece
  | .dims n :: ps => (n, ps)
  | ps => (0, ps)

def takeMark (r : Rule) : List Piece → Bool × List Piece
  | .mark r' :: ps => if r' = r then (true, ps) else (false, .mark r' :: ps)
  | ps => (false, ps)

def takeType : List Piece → Option Ty × List Piece
  | .type t :: ps => (some t, ps)
  | ps => (none, ps)

def takeForInit : List Piece → ForInit × List Piece
  | .forInit i :: ps => (i, ps)
  | ps => (.exprs [], ps)

def takeExpr : List Piece → Option Expr × List Piece
  | .expr e :: ps => (some e, ps)
  | ps => (none, ps)

def takeForUpdate : List Piece → List Expr × List Piece
  | .forUpdate es :: ps => (es, ps)
  | ps => ([], ps)

def takePackage : List Piece → Option Package × List Piece
  | .package p :: ps => (some p, ps)
  | ps => (none, ps)

def takeImports : List Piece → List Import × List Piece
  | .importing i :: ps => (i :: (takeImports ps).1, (takeImports ps).2)
  | ps => ([], ps)

def takeLengths : List Piece → List Expr × List Piece
  | .length e :: ps => (e :: (takeLengths ps).1, (takeLengths ps).2)
  | ps => ([], ps)

/-! ## Pieces from pieces -/

def declared? (ps : List Piece) : Option Variables :=
  match takeModifiers ps with
  | (modifiers, .type t :: rest) =>
    (rest.mapM fragment?).map fun fragments => ⟨modifiers, t, fragments⟩
  | _ => none

def importing? (span : Span) (ps : List Piece) : Option Import :=
  match takeMark .importStatic ps with
  | (isStatic, .path n :: rest) =>
    match takeMark .importOnDemand rest with
    | (onDemand, []) => some ⟨span, isStatic, n, onDemand⟩
    | _ => none
  | _ => none

def javaType? (span : Span) (ps : List Piece) : Option Ty :=
  match ps with
  | [.type t] => some t
  | [.type t, .dims n] => some (.array span t n)
  | _ => none

def classType? (span : Span) (ps : List Piece) : Option Ty :=
  match ps with
  | [.path n] => some (.simple ⟨n.span, n⟩)
  | [.path n, .types _ ts] => some (.generic span ⟨n.span, n⟩ ts)
  | _ => none

def typeMember? (span : Span) (ps : List Piece) : Option Member :=
  match takeModifiers ps with
  | (modifiers, .mark kind :: .name n :: rest) =>
    let typeParameters := takeTypeParameters rest
    let extended := takeTypes .extendsClause typeParameters.2
    let implemented := takeTypes .implementsClause extended.2
    match implemented.2 with
    | [.members bodySpan body] =>
      some (.type ⟨span, modifiers, kind == .kwInterface, n, typeParameters.1, extended.1,
        implemented.1, bodySpan⟩ body)
    | _ => none
  | _ => none

def method? (span : Span) (ps : List Piece) : Option Method :=
  let modifiers := takeModifiers ps
  let returnType := takeType modifiers.2
  match returnType.2 with
  | .name n :: .parameters params :: rest =>
    let thrown := takeTypes .throwsClause rest
    match thrown.2 with
    | [] => some ⟨span, modifiers.1, returnType.1, n, params, thrown.1, none⟩
    | [.stmt (.block bodySpan body)] =>
      some ⟨span, modifiers.1, returnType.1, n, params, thrown.1, some ⟨bodySpan, body⟩⟩
    | _ => none
  | _ => none

def parameterOf? (span : Span) (ps : List Piece) : Option Parameter :=
  match takeModifiers ps with
  | (modifiers, .type t :: .name n :: rest) =>
    match takeDims rest with
    | (extraDims, []) => some ⟨span, modifiers, t, n, extraDims⟩
    | _ => none
  | _ => none

def fragmentOf? (span : Span) (ps : List Piece) : Option Fragment :=
  match ps with
  | .name n :: rest =>
    match takeDims rest with
    | (extraDims, []) => some ⟨span, n, extraDims, none⟩
    | (extraDims, [.expr e]) => some ⟨span, n, extraDims, some e⟩
    | _ => none
  | _ => none

def forLoop? (span : Span) (ps : List Piece) : Option Stmt :=
  let init := takeForInit ps
  let condition := takeExpr init.2
  let updates := takeForUpdate condition.2
  match updates.2 with
  | [.stmt body] => some (.forLoop span init.1 condition.1 updates.1 body)
  | _ => none

def links? : List Piece → Option (List Link)
  | [] => some []
  | .infixOp op :: .expr e :: ps => (links? ps).map (.op op e :: ·)
  | .test s t :: ps => (links? ps).map (.test s t :: ·)
  | _ => none

def newArray? (span : Span) (ps : List Piece) : Option Expr :=
  match ps with
  | [.type t, .dims n, .expr (.arrayInit listSpan items)] =>
    some (.newListed span t n listSpan items)
  | .type t :: rest =>
    let lengths := takeLengths rest
    match takeDims lengths.2 with
    | (extraDims, []) => some (.newSized span t lengths.1 extraDims)
    | _ => none
  | _ => none

def unit? (span : Span) (ps : List Piece) : Option CompilationUnit :=
  let package := takePackage ps
  let imports := takeImports package.2
  match imports.2.getLast? with
  | some (.mark .endOfInput) =>
    (imports.2.dropLast.mapM typeDecl?).map fun types => ⟨span, package.1, imports.1, types⟩
  | _ => none

def isPlainWord : Rule → Bool
  | .kwPackage | .kwImport | .kwExtends | .kwImplements | .kwThrows | .kwIf | .kwElse | .kwWhile
  | .kwDo | .kwFor | .kwReturn | .kwBreak | .kwContinue | .kwThrow | .kwNew | .kwInstanceof =>
    true
  | _ => false

def firstName? (ps : List Piece) : Option (Option SimpleName) :=
  match ps with
  | [] => some none
  | [.name n] => some (some n)
  | _ => none

def readsText (r : Rule) : Bool := r.kind == .token || r == .dims

/-- The piece of a node of rule `r`: its trimmed span, its text if the rule reads it, and the
pieces of its parts. -/
def assemble? (r : Rule) (span : Span) (text : List Char) (ps : List Piece) : Option Piece :=
  let literal (kind : LiteralKind) : Option Piece :=
    some (.expr (.literal span kind (String.ofList text)))
  match r with
  | .identifier => some (.name ⟨span, String.ofList text⟩)
  | .kwClass | .kwInterface | .importStatic | .importOnDemand | .endOfInput => some (.mark r)
  | .compilationUnit => (unit? span ps).map .unit
  | .packageDeclaration =>
    match ps with
    | [.path n] => some (.package ⟨span, n⟩)
    | _ => none
  | .importDeclaration => (importing? span ps).map .importing
  | .qualifiedName => (ps.mapM name?).map fun ns => .path ⟨span, ns⟩
  | .modifier => (ofWord? (String.ofList text)).map fun k => .modifier (.keyword span k)
  | .tag =>
    match ps with
    | .path n :: _ => some (.modifier (.tag span n))
    | _ => none
  | .primitiveType | .voidType =>
    (ofWord? (String.ofList text)).map fun k => .type (.primitive span k)
  | .javaType => (javaType? span ps).map .type
  | .classType => (classType? span ps).map .type
  | .typeArguments | .extendsClause | .implementsClause | .throwsClause =>
    (ps.mapM type?).map (.types r)
  | .dims => some (.dims (text.count '['))
  | .typeDeclaration => (typeMember? span ps).map .member
  | .typeParameters => (ps.mapM typeParameter?).map .typeParameters
  | .typeParameter =>
    match ps with
    | [.name n] => some (.typeParameter ⟨span, n⟩)
    | _ => none
  | .classBody => (ps.mapM member?).map (.members span)
  | .methodDeclaration => (method? span ps).map fun m => .member (.method m)
  | .formalParameters => (ps.mapM parameter?).map .parameters
  | .formalParameter => (parameterOf? span ps).map .parameter
  | .fieldDeclaration => (declared? ps).map fun v => .member (.field ⟨span, v⟩)
  | .variableDeclarator => (fragmentOf? span ps).map .fragment
  | .arrayInitializer => (ps.mapM expr?).map fun es => .expr (.arrayInit span es)
  | .block => (ps.mapM stmt?).map fun ss => .stmt (.block span ss)
  | .localsStatement =>
    match ps with
    | [.declared _ v] => some (.stmt (.locals span v))
    | _ => none
  | .localsDeclaration => (declared? ps).map (.declared span)
  | .ifStatement =>
    match ps with
    | [.expr c, .stmt yes] => some (.stmt (.ifThen span c yes))
    | [.expr c, .stmt yes, .stmt no] => some (.stmt (.ifElse span c yes no))
    | _ => none
  | .whileStatement =>
    match ps with
    | [.expr c, .stmt body] => some (.stmt (.whileLoop span c body))
    | _ => none
  | .doStatement =>
    match ps with
    | [.stmt body, .expr c] => some (.stmt (.doLoop span body c))
    | _ => none
  | .forEachStatement =>
    match ps with
    | [.parameter p, .expr e, .stmt body] => some (.stmt (.forEach span p e body))
    | _ => none
  | .forStatement => (forLoop? span ps).map .stmt
  | .forInit =>
    match ps with
    | [.declared s v] => some (.forInit (.locals s v))
    | _ => (ps.mapM expr?).map fun es => .forInit (.exprs es)
  | .forUpdate => (ps.mapM expr?).map .forUpdate
  | .returnStatement =>
    match takeExpr ps with
    | (value?, []) => some (.stmt (.ret span value?))
    | _ => none
  | .breakStatement => (firstName? ps).map fun label? => .stmt (.leave span label?)
  | .continueStatement => (firstName? ps).map fun label? => .stmt (.next span label?)
  | .throwStatement =>
    match ps with
    | [.expr e] => some (.stmt (.throwing span e))
    | _ => none
  | .emptyStatement => some (.stmt (.empty span))
  | .expressionStatement =>
    match ps with
    | [.expr e] => some (.stmt (.expr span e))
    | _ => none
  | .expression =>
    match ps with
    | [.expr e] => some (.expr e)
    | _ => none
  | .assignment =>
    match ps with
    | [.expr left, .assignOp op, .expr right] => some (.expr (.assign span left op right))
    | _ => none
  | .assignmentOperator => (ofWord? (String.ofList text)).map .assignOp
  | .conditionalExpression =>
    match ps with
    | [.expr e] => some (.expr e)
    | [.expr c, .expr yes, .expr no] => some (.expr (.conditional span c yes no))
    | _ => none
  | .binaryExpression =>
    match ps with
    | .expr first :: rest => (links? rest).map fun links => .expr (.ofLinks first links)
    | _ => none
  | .instanceofSuffix =>
    match ps with
    | [.type t] => some (.test span t)
    | _ => none
  | .infixOperator _ => (ofWord? (String.ofList text)).map .infixOp
  | .unaryExpression =>
    match ps with
    | [.expr e] => some (.expr e)
    | [.prefixOp op, .expr e] => some (.expr (.prefixed span op e))
    | _ => none
  | .prefixOperator => (ofWord? (String.ofList text)).map .prefixOp
  | .castExpression =>
    match ps with
    | [.type t, .expr e] => some (.expr (.cast span t e))
    | _ => none
  | .postfixExpression =>
    match ps with
    | first :: rest =>
      match expr? first, rest.mapM selector? with
      | some e, some selectors => some (.expr (selectors.foldl Selector.apply e))
      | _, _ => none
    | [] => none
  | .postfixOperator =>
    (ofWord? (String.ofList text)).map fun op => .selector (.step span op)
  | .methodSelector =>
    match ps with
    | [.name n, .arguments es] => some (.selector (.call span n es))
    | _ => none
  | .fieldSelector =>
    match ps with
    | [.name n] => some (.selector (.field span n))
    | _ => none
  | .indexSelector =>
    match ps with
    | [.expr e] => some (.selector (.index span e))
    | _ => none
  | .thisExpression => some (.expr (.self span))
  | .parenthesized =>
    match ps with
    | [.expr e] => some (.expr (.paren span e))
    | _ => none
  | .unqualifiedCall =>
    match ps with
    | [.name n, .arguments es] => some (.expr (.call span n es))
    | _ => none
  | .arguments | .tagArguments => (ps.mapM expr?).map .arguments
  | .classInstanceCreation =>
    match ps with
    | [.type t, .arguments es] => some (.expr (.create span t es))
    | _ => none
  | .arrayCreation => (newArray? span ps).map .expr
  | .dimExpr =>
    match ps with
    | [.expr e] => some (.length e)
    | _ => none
  | .integerLiteral => literal .integer
  | .floatLiteral => literal .float
  | .charLiteral => literal .character
  | .stringLiteral => literal .string
  | .booleanLiteral => literal .boolean
  | .nullLiteral => literal .null
  | _ => none

end Piece

/-! ## Whole derivations -/

def trim (s : Source) (raw : Span) : Span :=
  let start := min (s.skipSpace false raw.start) raw.stop
  ⟨start, max (s.skipSpaceBack raw.stop) start⟩

mutual

/-- The pieces of a derivation: one for a node, none for words and comments. -/
def piecesOf (s : Source) : Derivation Rule → Option (List Piece)
  | .word _ => some []
  | .comment _ => some []
  | .node r raw parts =>
    match piecesOfAll s parts with
    | none => none
    | some ps =>
      if Piece.isPlainWord r then some []
      else
        match if Piece.readsText r then s.slice? raw else some [] with
        | none => none
        | some text => (Piece.assemble? r (trim s raw) text ps).map ([·])

def piecesOfAll (s : Source) : List (Derivation Rule) → Option (List Piece)
  | [] => some []
  | t :: ts =>
    match piecesOf s t, piecesOfAll s ts with
    | some ps, some qs => some (ps ++ qs)
    | _, _ => none

end

def CompilationUnit.ofDerivation? (s : Source) (t : Derivation Rule) : Option CompilationUnit :=
  match piecesOf s t with
  | some [.unit u] => some u
  | _ => none

end Transcribe.Java
