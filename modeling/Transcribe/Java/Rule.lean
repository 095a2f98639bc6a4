/-
  Transcribe.Java.Rule — the grammar of the Java subset.

  Keywords and operators are token rules that look one character ahead, so `int` is not read
  off the front of `interface` and `+` not off the front of `+=`. A binary expression is kept
  flat here; its tree is made from the precedence of the operators.

  The order of the rules is that in which they are reported, and the order of the alternatives
  of a rule decides which of them a text is. Every infix operator has a rule of its own
  (`infixToken`), with what must not follow it.
  - `body`: the expression of each rule.
  - `grammar`: the rules as a grammar.
-/

import Transcribe.Grammar.Match
import Transcribe.Java.Word

namespace Transcribe.Java

open Grammar (Peg RuleKind Rules)

/-- The rules, in the order in which they are reported when a text does not parse. -/
inductive Rule where
  | endOfInput
  | keyword
  | identifier
  | kwPackage | kwImport | kwClass | kwInterface | kwExtends | kwImplements | kwThrows
  | kwIf | kwElse | kwWhile | kwDo | kwFor | kwReturn | kwBreak | kwContinue | kwThrow
  | kwNew | kwInstanceof
  | importStatic
  | compilationUnit
  | packageDeclaration
  | importDeclaration
  | importOnDemand
  | qualifiedName
  | modifier
  | tag
  | tagArguments
  | primitiveType
  | voidType
  | javaType
  | classType
  | typeArguments
  | dims
  | typeDeclaration
  | typeParameters
  | typeParameter
  | extendsClause
  | implementsClause
  | classBody
  | methodDeclaration
  | formalParameters
  | formalParameter
  | throwsClause
  | fieldDeclaration
  | variableDeclarator
  | arrayInitializer
  | block
  | localsStatement
  | localsDeclaration
  | ifStatement
  | whileStatement
  | doStatement
  | forEachStatement
  | forStatement
  | forInit
  | forUpdate
  | returnStatement
  | breakStatement
  | continueStatement
  | throwStatement
  | emptyStatement
  | expressionStatement
  | expression
  | assignment
  | assignmentOperator
  | conditionalExpression
  | binaryExpression
  | instanceofSuffix
  | infixOperator (op : InfixOp)
  | unaryExpression
  | prefixOperator
  | castExpression
  | postfixExpression
  | postfixOperator
  | methodSelector
  | fieldSelector
  | indexSelector
  | thisExpression
  | parenthesized
  | unqualifiedCall
  | arguments
  | classInstanceCreation
  | arrayCreation
  | dimExpr
  | floatLiteral
  | integerLiteral
  | charLiteral
  | stringLiteral
  | booleanLiteral
  | nullLiteral
  deriving Repr, DecidableEq

/-! ## Characters and words -/

def isIdentStart (c : Char) : Bool := c.isAlpha || c == '_' || c == '$'

def isIdentChar (c : Char) : Bool := c.isAlphanum || c == '_' || c == '$'

def isHexDigit (c : Char) : Bool :=
  c.isDigit || ('a' ≤ c && c ≤ 'f') || ('A' ≤ c && c ≤ 'F')

/-- The reserved words, a longer one before the words it begins with. -/
def reservedWords : List String :=
  ["abstract", "boolean", "break", "byte", "case", "catch", "char", "class", "const", "continue",
   "default", "double", "do", "else", "enum", "extends", "false", "finally", "final", "float",
   "for", "goto", "if", "implements", "import", "instanceof", "interface", "int", "long",
   "native", "new", "null", "package", "private", "protected", "public", "return", "short",
   "static", "strictfp", "super", "switch", "synchronized", "this", "throws", "throw",
   "transient", "true", "try", "void", "volatile", "while"]

def modifierWords : List String :=
  ["public", "protected", "private", "static", "abstract", "final", "native", "synchronized",
   "transient", "volatile", "strictfp"]

def primitiveWords : List String :=
  ["boolean", "byte", "char", "short", "int", "long", "float", "double"]

namespace Rule

open Grammar.Peg (text oneOf seqs alts sepBy)

/-! ## Expressions shared by rules -/

def wholeWord (ws : List String) : Peg Rule :=
  .seq (oneOf ws) (.notAhead (.one isIdentChar))

/-- An operator that is not the front of one of these longer ones. -/
def operator (t : String) (longer : List String) : Peg Rule :=
  if longer.isEmpty then text t else .seq (text t) (.notAhead (oneOf longer))

def modifierList : Peg Rule := .many (.alt (.rule .modifier) (.rule .tag))

def member : Peg Rule :=
  alts (.rule .typeDeclaration) [.rule .methodDeclaration, .rule .fieldDeclaration]

def methodHeader : Peg Rule :=
  .alt
    (seqs (.alt (.rule .voidType) (.rule .javaType)) [.rule .identifier, .ahead (text "(")])
    (.seq (.rule .identifier) (.ahead (text "(")))

def variableInitializer : Peg Rule := .alt (.rule .arrayInitializer) (.rule .expression)

def statement : Peg Rule :=
  alts (.rule .block) [.rule .ifStatement, .rule .whileStatement, .rule .doStatement,
    .rule .forEachStatement, .rule .forStatement, .rule .returnStatement, .rule .breakStatement,
    .rule .continueStatement, .rule .throwStatement, .rule .emptyStatement,
    .rule .expressionStatement]

def infixOperators : Peg Rule :=
  alts (.rule (.infixOperator .condOr)) ([.condAnd, .or, .xor, .and, .equal, .notEqual,
    .lessEqual, .greaterEqual, .leftShift, .unsignedRightShift, .rightShift, .less, .greater,
    .plus, .minus, .times, .divide, .remainder].map fun op => .rule (.infixOperator op))

def selector : Peg Rule :=
  alts (.rule .methodSelector) [.rule .fieldSelector, .rule .indexSelector]

def literal : Peg Rule :=
  alts (.rule .floatLiteral) [.rule .integerLiteral, .rule .charLiteral, .rule .stringLiteral,
    .rule .booleanLiteral, .rule .nullLiteral]

def primary : Peg Rule :=
  alts literal [.rule .thisExpression, .rule .arrayCreation, .rule .classInstanceCreation,
    .rule .parenthesized, .rule .unqualifiedCall, .rule .identifier]

def argumentList : Peg Rule :=
  seqs (text "(") [.opt (sepBy (.rule .expression) ","), text ")"]

def digit : Peg Rule := .one Char.isDigit

def digits : Peg Rule := .some digit

def exponent : Peg Rule := seqs (oneOf ["e", "E"]) [.opt (oneOf ["+", "-"]), digits]

def floatSuffix : Peg Rule := oneOf ["f", "F", "d", "D"]

def anyChar : Peg Rule := .one fun _ => true

def quote : String := "\x22"

def apostrophe : String := "\x27"

def infixToken : InfixOp → Peg Rule
  | .condOr => operator "||" []
  | .condAnd => operator "&&" []
  | .or => operator "|" ["|", "="]
  | .xor => operator "^" ["="]
  | .and => operator "&" ["&", "="]
  | .equal => operator "==" []
  | .notEqual => operator "!=" []
  | .lessEqual => operator "<=" []
  | .greaterEqual => operator ">=" []
  | .leftShift => operator "<<" ["="]
  | .unsignedRightShift => operator ">>>" ["="]
  | .rightShift => operator ">>" [">", "="]
  | .less => operator "<" ["<", "="]
  | .greater => operator ">" [">", "="]
  | .plus => operator "+" ["+", "="]
  | .minus => operator "-" ["-", "="]
  | .times => operator "*" ["="]
  | .divide => operator "/" ["="]
  | .remainder => operator "%" ["="]

/-! ## Rules -/

def kind : Rule → RuleKind
  | .keyword | .identifier | .kwPackage | .kwImport | .kwClass | .kwInterface | .kwExtends
  | .kwImplements | .kwThrows | .kwIf | .kwElse | .kwWhile | .kwDo | .kwFor | .kwReturn
  | .kwBreak | .kwContinue | .kwThrow | .kwNew | .kwInstanceof | .importStatic | .modifier
  | .primitiveType | .voidType | .assignmentOperator | .infixOperator _ | .prefixOperator
  | .postfixOperator | .thisExpression | .floatLiteral | .integerLiteral | .charLiteral
  | .stringLiteral | .booleanLiteral | .nullLiteral => .token
  | _ => .tree

def body : Rule → Peg Rule
  | .endOfInput => .endOfText
  | .keyword => wholeWord reservedWords
  | .identifier =>
    seqs (.notAhead (.rule .keyword)) [.one isIdentStart, .many (.one isIdentChar)]
  | .kwPackage => wholeWord ["package"]
  | .kwImport => wholeWord ["import"]
  | .kwClass => wholeWord ["class"]
  | .kwInterface => wholeWord ["interface"]
  | .kwExtends => wholeWord ["extends"]
  | .kwImplements => wholeWord ["implements"]
  | .kwThrows => wholeWord ["throws"]
  | .kwIf => wholeWord ["if"]
  | .kwElse => wholeWord ["else"]
  | .kwWhile => wholeWord ["while"]
  | .kwDo => wholeWord ["do"]
  | .kwFor => wholeWord ["for"]
  | .kwReturn => wholeWord ["return"]
  | .kwBreak => wholeWord ["break"]
  | .kwContinue => wholeWord ["continue"]
  | .kwThrow => wholeWord ["throw"]
  | .kwNew => wholeWord ["new"]
  | .kwInstanceof => wholeWord ["instanceof"]
  | .importStatic => wholeWord ["static"]
  | .compilationUnit =>
    seqs .startOfText [.opt (.rule .packageDeclaration), .many (.rule .importDeclaration),
      .many (.rule .typeDeclaration), .rule .endOfInput]
  | .packageDeclaration => seqs (.rule .kwPackage) [.rule .qualifiedName, text ";"]
  | .importDeclaration =>
    seqs (.rule .kwImport) [.opt (.rule .importStatic), .rule .qualifiedName,
      .opt (.rule .importOnDemand), text ";"]
  | .importOnDemand => .seq (text ".") (text "*")
  | .qualifiedName => sepBy (.rule .identifier) "."
  | .modifier => wholeWord modifierWords
  | .tag => seqs (text "@") [.rule .qualifiedName, .opt (.rule .tagArguments)]
  | .tagArguments => argumentList
  | .primitiveType => wholeWord primitiveWords
  | .voidType => wholeWord ["void"]
  | .javaType => .seq (.alt (.rule .primitiveType) (.rule .classType)) (.opt (.rule .dims))
  | .classType => .seq (.rule .qualifiedName) (.opt (.rule .typeArguments))
  | .typeArguments => seqs (text "<") [.rule .javaType,
      .many (.seq (text ",") (.rule .javaType)), text ">"]
  | .dims => .some (.seq (text "[") (text "]"))
  | .typeDeclaration =>
    seqs modifierList [.alt (.rule .kwClass) (.rule .kwInterface), .rule .identifier,
      .opt (.rule .typeParameters), .opt (.rule .extendsClause), .opt (.rule .implementsClause),
      .rule .classBody]
  | .typeParameters => seqs (text "<") [.rule .typeParameter,
      .many (.seq (text ",") (.rule .typeParameter)), text ">"]
  | .typeParameter => .rule .identifier
  | .extendsClause => .seq (.rule .kwExtends) (sepBy (.rule .classType) ",")
  | .implementsClause => .seq (.rule .kwImplements) (sepBy (.rule .classType) ",")
  | .classBody => seqs (text "\x7b") [.many member, text "\x7d"]
  | .methodDeclaration =>
    seqs modifierList [methodHeader, .rule .formalParameters, .opt (.rule .throwsClause),
      .alt (.rule .block) (text ";")]
  | .formalParameters => seqs (text "(") [.opt (sepBy (.rule .formalParameter) ","), text ")"]
  | .formalParameter =>
    seqs modifierList [.rule .javaType, .rule .identifier, .opt (.rule .dims)]
  | .throwsClause => .seq (.rule .kwThrows) (sepBy (.rule .classType) ",")
  | .fieldDeclaration =>
    seqs modifierList [.rule .javaType, .rule .variableDeclarator,
      .many (.seq (text ",") (.rule .variableDeclarator)), text ";"]
  | .variableDeclarator =>
    seqs (.rule .identifier) [.opt (.rule .dims), .opt (.seq (text "=") variableInitializer)]
  | .arrayInitializer =>
    seqs (text "\x7b") [.opt (sepBy variableInitializer ","), .opt (text ","), text "\x7d"]
  | .block =>
    seqs (text "\x7b") [.many (.alt (.rule .localsStatement) statement), text "\x7d"]
  | .localsStatement => .seq (.rule .localsDeclaration) (text ";")
  | .localsDeclaration =>
    seqs modifierList [.rule .javaType, .rule .variableDeclarator,
      .many (.seq (text ",") (.rule .variableDeclarator))]
  | .ifStatement =>
    seqs (.rule .kwIf) [text "(", .rule .expression, text ")", statement,
      .opt (.seq (.rule .kwElse) statement)]
  | .whileStatement =>
    seqs (.rule .kwWhile) [text "(", .rule .expression, text ")", statement]
  | .doStatement =>
    seqs (.rule .kwDo) [statement, .rule .kwWhile, text "(", .rule .expression, text ")",
      text ";"]
  | .forEachStatement =>
    seqs (.rule .kwFor) [text "(", .rule .formalParameter, text ":", .rule .expression, text ")",
      statement]
  | .forStatement =>
    seqs (.rule .kwFor) [text "(", .opt (.rule .forInit), text ";", .opt (.rule .expression),
      text ";", .opt (.rule .forUpdate), text ")", statement]
  | .forInit => .alt (.rule .localsDeclaration) (sepBy (.rule .expression) ",")
  | .forUpdate => sepBy (.rule .expression) ","
  | .returnStatement => seqs (.rule .kwReturn) [.opt (.rule .expression), text ";"]
  | .breakStatement => seqs (.rule .kwBreak) [.opt (.rule .identifier), text ";"]
  | .continueStatement => seqs (.rule .kwContinue) [.opt (.rule .identifier), text ";"]
  | .throwStatement => seqs (.rule .kwThrow) [.rule .expression, text ";"]
  | .emptyStatement => text ";"
  | .expressionStatement => .seq (.rule .expression) (text ";")
  | .expression => .alt (.rule .assignment) (.rule .conditionalExpression)
  | .assignment =>
    seqs (.rule .postfixExpression) [.rule .assignmentOperator, .rule .expression]
  | .assignmentOperator =>
    .alt (.seq (text "=") (.notAhead (text "=")))
      (oneOf ["+=", "-=", "*=", "/=", "%=", "&=", "|=", "^=", "<<=", ">>>=", ">>="])
  | .conditionalExpression =>
    .seq (.rule .binaryExpression)
      (.opt (seqs (text "?") [.rule .expression, text ":", .rule .conditionalExpression]))
  | .binaryExpression =>
    .seq (.rule .unaryExpression)
      (.many (.alt (.rule .instanceofSuffix) (.seq infixOperators (.rule .unaryExpression))))
  | .instanceofSuffix => .seq (.rule .kwInstanceof) (.rule .javaType)
  | .infixOperator op => infixToken op
  | .unaryExpression =>
    alts (.seq (.rule .prefixOperator) (.rule .unaryExpression))
      [.rule .castExpression, .rule .postfixExpression]
  | .prefixOperator => oneOf ["++", "--", "+", "-", "!", "~"]
  | .castExpression =>
    .alt
      (seqs (text "(") [.ahead (.rule .primitiveType), .rule .javaType, text ")",
        .rule .unaryExpression])
      (seqs (text "(") [.rule .javaType, text ")", .notAhead (oneOf ["+", "-"]),
        .rule .unaryExpression])
  | .postfixExpression => seqs primary [.many selector, .many (.rule .postfixOperator)]
  | .postfixOperator => oneOf ["++", "--"]
  | .methodSelector => seqs (text ".") [.rule .identifier, .rule .arguments]
  | .fieldSelector => .seq (text ".") (.rule .identifier)
  | .indexSelector => seqs (text "[") [.rule .expression, text "]"]
  | .thisExpression => wholeWord ["this"]
  | .parenthesized => seqs (text "(") [.rule .expression, text ")"]
  | .unqualifiedCall => .seq (.rule .identifier) (.rule .arguments)
  | .arguments => argumentList
  | .classInstanceCreation => seqs (.rule .kwNew) [.rule .classType, .rule .arguments]
  | .arrayCreation =>
    seqs (.rule .kwNew) [.alt (.rule .primitiveType) (.rule .classType),
      .alt (.seq (.some (.rule .dimExpr)) (.opt (.rule .dims)))
        (.seq (.rule .dims) (.rule .arrayInitializer))]
  | .dimExpr => seqs (text "[") [.rule .expression, text "]"]
  | .floatLiteral =>
    .seq
      (alts (seqs digits [text ".", .many digit, .opt exponent, .opt floatSuffix])
        [seqs (text ".") [digits, .opt exponent, .opt floatSuffix],
         seqs digits [exponent, .opt floatSuffix],
         .seq digits floatSuffix])
      (.notAhead (.one isIdentChar))
  | .integerLiteral =>
    seqs (.alt (.seq (oneOf ["0x", "0X"]) (.some (.one isHexDigit))) digits)
      [.opt (oneOf ["l", "L"]), .notAhead (.one isIdentChar)]
  | .charLiteral =>
    seqs (text apostrophe)
      [.alt
        (seqs (text "\\") [anyChar, .many (.seq (.notAhead (text apostrophe)) anyChar)])
        (.seq (.notAhead (text apostrophe)) anyChar),
       text apostrophe]
  | .stringLiteral =>
    seqs (text quote)
      [.many (.alt (.seq (text "\\") anyChar)
        (.seq (.notAhead (oneOf [quote, "\n", "\r"])) anyChar)),
       text quote]
  | .booleanLiteral => wholeWord ["true", "false"]
  | .nullLiteral => wholeWord ["null"]

def leading : List Rule :=
  [.endOfInput, .keyword, .identifier, .kwPackage, .kwImport, .kwClass, .kwInterface, .kwExtends,
   .kwImplements, .kwThrows, .kwIf, .kwElse, .kwWhile, .kwDo, .kwFor, .kwReturn, .kwBreak,
   .kwContinue, .kwThrow, .kwNew, .kwInstanceof, .importStatic, .compilationUnit,
   .packageDeclaration, .importDeclaration, .importOnDemand, .qualifiedName, .modifier, .tag,
   .tagArguments, .primitiveType, .voidType, .javaType, .classType, .typeArguments, .dims,
   .typeDeclaration, .typeParameters, .typeParameter, .extendsClause, .implementsClause,
   .classBody, .methodDeclaration, .formalParameters, .formalParameter, .throwsClause,
   .fieldDeclaration, .variableDeclarator, .arrayInitializer, .block, .localsStatement,
   .localsDeclaration, .ifStatement, .whileStatement, .doStatement, .forEachStatement,
   .forStatement, .forInit, .forUpdate, .returnStatement, .breakStatement, .continueStatement,
   .throwStatement, .emptyStatement, .expressionStatement, .expression, .assignment,
   .assignmentOperator, .conditionalExpression, .binaryExpression, .instanceofSuffix]

def closing : List Rule :=
  [.unaryExpression, .prefixOperator, .castExpression, .postfixExpression, .postfixOperator,
   .methodSelector, .fieldSelector, .indexSelector, .thisExpression, .parenthesized,
   .unqualifiedCall, .arguments, .classInstanceCreation, .arrayCreation, .dimExpr, .floatLiteral,
   .integerLiteral, .charLiteral, .stringLiteral, .booleanLiteral, .nullLiteral]

def all : List Rule := leading ++ (Worded.all : List InfixOp).map .infixOperator ++ closing

theorem mem_all (r : Rule) : r ∈ all := by
  cases r with
  | infixOperator op => cases op <;> decide
  | _ => decide

def grammar : Rules Rule := ⟨all, kind, body⟩

end Rule

end Transcribe.Java
