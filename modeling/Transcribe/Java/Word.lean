/-
  Transcribe.Java.Word — the closed sets of words and operators of Java.

  Each set is listed in full, and every member has one spelling; reading a spelling searches
  the list.
  - `ofWord?_word`: reading the spelling of a member gives it back.
-/

namespace Transcribe.Java

/-- A closed set of words: all of them, and how each is spelled. None is left out, and no two
are spelled alike. -/
class Worded (α : Type) where
  all : List α
  word : α → String
  find_word : ∀ a, all.find? (fun b => word b == word a) = some a

export Worded (word)

def ofWord? {α : Type} [Worded α] (t : String) : Option α :=
  (Worded.all : List α).find? fun a => word a == t

@[simp] theorem ofWord?_word {α : Type} [Worded α] (a : α) : ofWord? (word a) = some a :=
  Worded.find_word a

theorem word_of_ofWord? {α : Type} [Worded α] {t : String} {a : α} (h : ofWord? t = some a) :
    word a = t := by
  simpa using List.find?_some h

/-! ## Operators -/

inductive AssignOp where
  | assign | plus | minus | times | divide | remainder | bitAnd | bitOr | bitXor
  | leftShift | rightShift | unsignedRightShift
  deriving Repr, DecidableEq

instance : Worded AssignOp where
  all := [.assign, .plus, .minus, .times, .divide, .remainder, .bitAnd, .bitOr, .bitXor,
    .leftShift, .rightShift, .unsignedRightShift]
  word
    | .assign => "=" | .plus => "+=" | .minus => "-=" | .times => "*=" | .divide => "/="
    | .remainder => "%=" | .bitAnd => "&=" | .bitOr => "|=" | .bitXor => "^="
    | .leftShift => "<<=" | .rightShift => ">>=" | .unsignedRightShift => ">>>="
  find_word := by intro a; cases a <;> rfl

inductive InfixOp where
  | condOr | condAnd | or | xor | and | equal | notEqual | less | greater | lessEqual
  | greaterEqual | leftShift | rightShift | unsignedRightShift | plus | minus | times | divide
  | remainder
  deriving Repr, DecidableEq

instance : Worded InfixOp where
  all := [.condOr, .condAnd, .or, .xor, .and, .equal, .notEqual, .less, .greater, .lessEqual,
    .greaterEqual, .leftShift, .rightShift, .unsignedRightShift, .plus, .minus, .times, .divide,
    .remainder]
  word
    | .condOr => "||" | .condAnd => "&&" | .or => "|" | .xor => "^" | .and => "&"
    | .equal => "==" | .notEqual => "!=" | .less => "<" | .greater => ">" | .lessEqual => "<="
    | .greaterEqual => ">=" | .leftShift => "<<" | .rightShift => ">>"
    | .unsignedRightShift => ">>>" | .plus => "+" | .minus => "-" | .times => "*"
    | .divide => "/" | .remainder => "%"
  find_word := by intro a; cases a <;> rfl

inductive PrefixOp where
  | increment | decrement | plus | minus | not | complement
  deriving Repr, DecidableEq

instance : Worded PrefixOp where
  all := [.increment, .decrement, .plus, .minus, .not, .complement]
  word
    | .increment => "++" | .decrement => "--" | .plus => "+" | .minus => "-" | .not => "!"
    | .complement => "~"
  find_word := by intro a; cases a <;> rfl

inductive PostfixOp where
  | increment | decrement
  deriving Repr, DecidableEq

instance : Worded PostfixOp where
  all := [.increment, .decrement]
  word
    | .increment => "++" | .decrement => "--"
  find_word := by intro a; cases a <;> rfl

/-! ## Words -/

inductive Primitive where
  | boolean | byte | char | short | int | long | float | double | void
  deriving Repr, DecidableEq

instance : Worded Primitive where
  all := [.boolean, .byte, .char, .short, .int, .long, .float, .double, .void]
  word
    | .boolean => "boolean" | .byte => "byte" | .char => "char" | .short => "short"
    | .int => "int" | .long => "long" | .float => "float" | .double => "double"
    | .void => "void"
  find_word := by intro a; cases a <;> rfl

inductive Access where
  | pub | prot | priv
  deriving Repr, DecidableEq

inductive Keyword where
  | access (a : Access)
  | static | abstract | final | native | synchronized | transient | volatile | strictfp
  deriving Repr, DecidableEq

instance : Worded Access where
  all := [.pub, .prot, .priv]
  word
    | .pub => "public" | .prot => "protected" | .priv => "private"
  find_word := by intro a; cases a <;> rfl

instance : Worded Keyword where
  all := [.access .pub, .access .prot, .access .priv, .static, .abstract, .final, .native,
    .synchronized, .transient, .volatile, .strictfp]
  word
    | .access a => Worded.word a | .static => "static" | .abstract => "abstract"
    | .final => "final" | .native => "native" | .synchronized => "synchronized"
    | .transient => "transient" | .volatile => "volatile" | .strictfp => "strictfp"
  find_word := by
    intro a
    cases a with
    | access a => cases a <;> rfl
    | _ => rfl

end Transcribe.Java
