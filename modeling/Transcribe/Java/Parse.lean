/-
  Transcribe.Java.Parse — reading Java source.

  A text that is not in the grammar is refused with what would have let it go on at the
  furthest offset reached. The rules tried there are described in the order of the grammar, each
  once, and put into words as alternatives: those that failed are expected, those that matched
  where they must not are unexpected.
-/

import Transcribe.Java.Piece

namespace Transcribe.Java

open Text (Span Source)
open Grammar (Attempts Outcome)

structure Parsed where
  source : Source
  unit : CompilationUnit

inductive ParseFailure where
  /-- No derivation; the rules tried at the furthest offset. -/
  | refused (offset : Nat) (expected unexpected : List Rule)
  /-- A derivation that is no syntax tree. -/
  | malformed
  /-- The search was not finished. -/
  | unfinished
  deriving Repr, DecidableEq

def Rule.description : Rule → String
  | .endOfInput => "end of input"
  | .identifier => "identifier"
  | .expression => "expression"
  | .javaType | .classType | .primitiveType => "type"
  | .typeDeclaration => "class or interface declaration"
  | .importDeclaration => "import"
  | .packageDeclaration => "package declaration"
  | .methodDeclaration | .fieldDeclaration => "member declaration"
  | .block => "block"
  | .modifier => "modifier"
  | .tag => "annotation"
  | .assignmentOperator => "assignment operator"
  | .formalParameter => "parameter"
  | .variableDeclarator => "variable declarator"
  | .localsStatement | .ifStatement | .whileStatement | .doStatement | .forStatement
  | .forEachStatement | .returnStatement | .breakStatement | .continueStatement
  | .throwStatement | .emptyStatement | .expressionStatement => "statement"
  | _ => "token"

namespace ParseFailure

/-- Alternatives in words: `a`, `a or b`, `a, b, or c`. -/
def listed : List String → String
  | [] => ""
  | [a] => a
  | [a, b] => a ++ " or " ++ b
  | many => ", ".intercalate many.dropLast ++ ", or " ++ many.getLastD ""

/-- The rules tried, in the order of the grammar and each once. -/
def described (rules : List Rule) : String :=
  listed ((Rule.all.filter rules.contains).map Rule.description)

def message : ParseFailure → String
  | .refused _ [] [] => "unknown parsing error"
  | .refused _ expected [] => "expected " ++ described expected
  | .refused _ [] unexpected => "unexpected " ++ described unexpected
  | .refused _ expected unexpected =>
    "unexpected " ++ described unexpected ++ "; expected " ++ described expected
  | .malformed => "malformed parse tree"
  | .unfinished => "unfinished parse"

def offset : ParseFailure → Nat
  | .refused o _ _ => o
  | .malformed => 0
  | .unfinished => 0

end ParseFailure

def parseSource (s : Source) : Except ParseFailure CompilationUnit :=
  match Rule.grammar.match? .compilationUnit s.chars with
  | none => .error .unfinished
  | some (.failed a) => .error (.refused a.offset a.expected a.unexpected)
  | some (.matched trees _ _) =>
    match trees with
    | [t] =>
      match CompilationUnit.ofDerivation? s t with
      | some u => .ok u
      | none => .error .malformed
    | _ => .error .malformed

def parse (name text : String) : Except ParseFailure Parsed :=
  let s := Source.ofString name text
  (parseSource s).map fun u => ⟨s, u⟩

end Transcribe.Java
