/-
  Transcribe.Java.Label — what words, operators and nodes are called in descriptions.
-/

import Transcribe.Java.Node

namespace Transcribe.Java

def AssignOp.label : AssignOp → String
  | .assign => "Assign"
  | .plus => "PlusAssign"
  | .minus => "MinusAssign"
  | .times => "TimesAssign"
  | .divide => "DivideAssign"
  | .remainder => "RemainderAssign"
  | .bitAnd => "BitAndAssign"
  | .bitOr => "BitOrAssign"
  | .bitXor => "BitXorAssign"
  | .leftShift => "LeftShiftAssign"
  | .rightShift => "RightShiftSignedAssign"
  | .unsignedRightShift => "RightShiftUnsignedAssign"

def InfixOp.label : InfixOp → String
  | .condOr => "ConditionalOr"
  | .condAnd => "ConditionalAnd"
  | .or => "Or"
  | .xor => "Xor"
  | .and => "And"
  | .equal => "Equals"
  | .notEqual => "NotEquals"
  | .less => "Less"
  | .greater => "Greater"
  | .lessEqual => "LessEquals"
  | .greaterEqual => "GreaterEquals"
  | .leftShift => "LeftShift"
  | .rightShift => "RightShiftSigned"
  | .unsignedRightShift => "RightShiftUnsigned"
  | .plus => "Plus"
  | .minus => "Minus"
  | .times => "Times"
  | .divide => "Divide"
  | .remainder => "Remainder"

def PrefixOp.label : PrefixOp → String
  | .increment => "Increment"
  | .decrement => "Decrement"
  | .plus => "Plus"
  | .minus => "Minus"
  | .not => "Not"
  | .complement => "Complement"

def PostfixOp.label : PostfixOp → String
  | .increment => "Increment"
  | .decrement => "Decrement"

def Primitive.label : Primitive → String
  | .boolean => "Boolean"
  | .byte => "Byte"
  | .char => "Char"
  | .short => "Short"
  | .int => "Int"
  | .long => "Long"
  | .float => "Float"
  | .double => "Double"
  | .void => "Void"

def Keyword.label : Keyword → String
  | .access .pub => "Public"
  | .access .prot => "Protected"
  | .access .priv => "Private"
  | .static => "Static"
  | .abstract => "Abstract"
  | .final => "Final"
  | .native => "Native"
  | .synchronized => "Synchronized"
  | .transient => "Transient"
  | .volatile => "Volatile"
  | .strictfp => "Strictfp"

def Keyword.isAccess : Keyword → Bool
  | .access _ => true
  | _ => false

def LiteralKind.label : LiteralKind → String
  | .integer => "Integer"
  | .float => "Float"
  | .character => "Character"
  | .string => "String"
  | .boolean => "Boolean"
  | .null => "Null"

inductive NodeKind where
  | compilationUnit | packageDeclaration | importDeclaration | typeDeclaration
  | fieldDeclaration | methodDeclaration | singleVariableDeclaration
  | variableDeclarationFragment | modifier | tag | primitiveType | simpleType | arrayType
  | parameterizedType | typeParameter | block | variableDeclarationStatement
  | expressionStatement | ifStatement | whileStatement | doStatement | forStatement
  | enhancedForStatement | returnStatement | breakStatement | continueStatement
  | throwStatement | emptyStatement | literal | simpleName | thisExpression | fieldAccess
  | methodInvocation | classInstanceCreation | arrayCreation | arrayInitializer | arrayAccess
  | assignment | infixExpression | instanceofExpression | prefixExpression | postfixExpression
  | conditionalExpression | parenthesizedExpression | castExpression
  | variableDeclarationExpression
  deriving Repr, DecidableEq

namespace NodeKind

def all : List NodeKind :=
  [.compilationUnit, .packageDeclaration, .importDeclaration, .typeDeclaration,
   .fieldDeclaration, .methodDeclaration, .singleVariableDeclaration,
   .variableDeclarationFragment, .modifier, .tag, .primitiveType, .simpleType, .arrayType,
   .parameterizedType, .typeParameter, .block, .variableDeclarationStatement,
   .expressionStatement, .ifStatement, .whileStatement, .doStatement, .forStatement,
   .enhancedForStatement, .returnStatement, .breakStatement, .continueStatement,
   .throwStatement, .emptyStatement, .literal, .simpleName, .thisExpression, .fieldAccess,
   .methodInvocation, .classInstanceCreation, .arrayCreation, .arrayInitializer, .arrayAccess,
   .assignment, .infixExpression, .instanceofExpression, .prefixExpression, .postfixExpression,
   .conditionalExpression, .parenthesizedExpression, .castExpression,
   .variableDeclarationExpression]

def label : NodeKind → String
  | .compilationUnit => "CompilationUnit"
  | .packageDeclaration => "PackageDeclaration"
  | .importDeclaration => "ImportDeclaration"
  | .typeDeclaration => "TypeDeclaration"
  | .fieldDeclaration => "FieldDeclaration"
  | .methodDeclaration => "MethodDeclaration"
  | .singleVariableDeclaration => "SingleVariableDeclaration"
  | .variableDeclarationFragment => "VariableDeclarationFragment"
  | .modifier => "Modifier"
  | .tag => "Annotation"
  | .primitiveType => "PrimitiveType"
  | .simpleType => "SimpleType"
  | .arrayType => "ArrayType"
  | .parameterizedType => "ParameterizedType"
  | .typeParameter => "TypeParameter"
  | .block => "Block"
  | .variableDeclarationStatement => "VariableDeclarationStatement"
  | .expressionStatement => "ExpressionStatement"
  | .ifStatement => "IfStatement"
  | .whileStatement => "WhileStatement"
  | .doStatement => "DoStatement"
  | .forStatement => "ForStatement"
  | .enhancedForStatement => "EnhancedForStatement"
  | .returnStatement => "ReturnStatement"
  | .breakStatement => "BreakStatement"
  | .continueStatement => "ContinueStatement"
  | .throwStatement => "ThrowStatement"
  | .emptyStatement => "EmptyStatement"
  | .literal => "Literal"
  | .simpleName => "SimpleName"
  | .thisExpression => "ThisExpression"
  | .fieldAccess => "FieldAccess"
  | .methodInvocation => "MethodInvocation"
  | .classInstanceCreation => "ClassInstanceCreation"
  | .arrayCreation => "ArrayCreation"
  | .arrayInitializer => "ArrayInitializer"
  | .arrayAccess => "ArrayAccess"
  | .assignment => "Assignment"
  | .infixExpression => "InfixExpression"
  | .instanceofExpression => "InstanceofExpression"
  | .prefixExpression => "PrefixExpression"
  | .postfixExpression => "PostfixExpression"
  | .conditionalExpression => "ConditionalExpression"
  | .parenthesizedExpression => "ParenthesizedExpression"
  | .castExpression => "CastExpression"
  | .variableDeclarationExpression => "VariableDeclarationExpression"

end NodeKind

def Ty.kind : Ty → NodeKind
  | .primitive _ _ => .primitiveType
  | .simple _ => .simpleType
  | .array _ _ _ => .arrayType
  | .generic _ _ _ => .parameterizedType

def Expr.kind : Expr → NodeKind
  | .literal _ _ _ => .literal
  | .name _ => .simpleName
  | .self _ => .thisExpression
  | .field _ _ _ => .fieldAccess
  | .call _ _ _ => .methodInvocation
  | .invoke _ _ _ _ => .methodInvocation
  | .create _ _ _ => .classInstanceCreation
  | .newSized _ _ _ _ => .arrayCreation
  | .newListed _ _ _ _ _ => .arrayCreation
  | .arrayInit _ _ => .arrayInitializer
  | .index _ _ _ => .arrayAccess
  | .assign _ _ _ _ => .assignment
  | .binary _ _ _ _ => .infixExpression
  | .instanceOf _ _ _ => .instanceofExpression
  | .prefixed _ _ _ => .prefixExpression
  | .postfixed _ _ _ => .postfixExpression
  | .conditional _ _ _ _ => .conditionalExpression
  | .paren _ _ => .parenthesizedExpression
  | .cast _ _ _ => .castExpression

def Stmt.kind : Stmt → NodeKind
  | .block _ _ => .block
  | .locals _ _ => .variableDeclarationStatement
  | .expr _ _ => .expressionStatement
  | .ifThen _ _ _ => .ifStatement
  | .ifElse _ _ _ _ => .ifStatement
  | .whileLoop _ _ _ => .whileStatement
  | .doLoop _ _ _ => .doStatement
  | .forLoop _ _ _ _ _ => .forStatement
  | .forEach _ _ _ _ => .enhancedForStatement
  | .ret _ _ => .returnStatement
  | .leave _ _ => .breakStatement
  | .next _ _ => .continueStatement
  | .throwing _ _ => .throwStatement
  | .empty _ => .emptyStatement

def Node.kind : Node → NodeKind
  | .unit _ => .compilationUnit
  | .package _ => .packageDeclaration
  | .importing _ => .importDeclaration
  | .decl _ => .typeDeclaration
  | .field _ => .fieldDeclaration
  | .method _ => .methodDeclaration
  | .parameter _ => .singleVariableDeclaration
  | .fragment _ => .variableDeclarationFragment
  | .modifier (.keyword _ _) => .modifier
  | .modifier (.tag _ _) => .tag
  | .type t => t.kind
  | .typeParameter _ => .typeParameter
  | .stmt s => s.kind
  | .expr e => e.kind
  | .locals _ _ => .variableDeclarationExpression

end Transcribe.Java
