/-
  Transcribe.Java.Precedence — the tree of a binary expression.

  A binary expression is read flat: an operand, then operators with their operands and
  `instanceof` tests. All operators group to the left, and a test binds like a comparison.
  Operators wait with their left operand until one that binds no tighter, or the end, comes.
-/

import Transcribe.Java.Tree

namespace Transcribe.Java

open Text (Span)

def InfixOp.level : InfixOp → Nat
  | .condOr => 1
  | .condAnd => 2
  | .or => 3
  | .xor => 4
  | .and => 5
  | .equal | .notEqual => 6
  | .less | .greater | .lessEqual | .greaterEqual => 7
  | .leftShift | .rightShift | .unsignedRightShift => 8
  | .plus | .minus => 9
  | .times | .divide | .remainder => 10

def testLevel : Nat := 7

inductive Link where
  | op (op : InfixOp) (operand : Expr)
  | test (span : Span) (type : Ty)

structure Pending where
  left : Expr
  op : InfixOp

namespace Pending

def join (p : Pending) (right : Expr) : Expr :=
  .binary (p.left.span.join right.span) p.left p.op right

/-- Joins the operators that bind at least as tightly as `level`, the latest first. -/
def settle (level : Nat) : List Pending → Expr → List Pending × Expr
  | [], e => ([], e)
  | p :: ps, e => if level ≤ p.op.level then settle level ps (p.join e) else (p :: ps, e)

end Pending

def climb : List Pending → Expr → List Link → Expr
  | ps, e, [] => (Pending.settle 0 ps e).2
  | ps, e, .op o operand :: links =>
    let settled := Pending.settle o.level ps e
    climb (⟨settled.2, o⟩ :: settled.1) operand links
  | ps, e, .test s t :: links =>
    let settled := Pending.settle testLevel ps e
    climb settled.1 (.instanceOf (settled.2.span.join s) settled.2 t) links

def Expr.ofLinks (first : Expr) (links : List Link) : Expr := climb [] first links

end Transcribe.Java
