/-
  Transcribe.Grammar.Attempts — which rules were tried where a parse got furthest.

  Only the furthest offset counts. Rules that failed there are expected; rules that matched
  inside a negative lookahead are unexpected. A rule speaks for the rules tried on its behalf
  at the same offset, unless there was exactly one of them.
-/

namespace Transcribe.Grammar

structure Attempts (ρ : Type) where
  offset : Nat
  expected : List ρ
  unexpected : List ρ

inductive Look where
  | none
  | positive
  | negative
  deriving Repr, DecidableEq

namespace Look

def ahead : Look → Look
  | .negative => .negative
  | _ => .positive

def notAhead : Look → Look
  | .negative => .positive
  | _ => .negative

end Look

structure Mode where
  /-- Inside a token rule. -/
  token : Bool
  look : Look

structure Mark where
  expected : Nat
  unexpected : Nat

namespace Attempts

variable {ρ : Type}

def start : Attempts ρ := ⟨0, [], []⟩

def mark (a : Attempts ρ) (o : Nat) : Mark :=
  if o = a.offset then ⟨a.expected.length, a.unexpected.length⟩ else ⟨0, 0⟩

/-- Nothing tried, at `o` or wherever the parse got further. -/
def reach (a : Attempts ρ) (o : Nat) : Attempts ρ := if a.offset < o then ⟨o, [], []⟩ else a

def backTo (a : Attempts ρ) (o : Nat) (k : Mark) : Attempts ρ :=
  if o = a.offset then
    ⟨a.offset, a.expected.take k.expected, a.unexpected.take k.unexpected⟩
  else a

def add (a : Attempts ρ) (negative : Bool) (r : ρ) (o : Nat) : Attempts ρ :=
  if o = a.offset then
    if negative then { a with unexpected := a.unexpected ++ [r] }
    else { a with expected := a.expected ++ [r] }
  else a

/-- Records rule `r`, entered at `o` when the attempts there were `k`. -/
def note (a : Attempts ρ) (m : Mode) (r : ρ) (o : Nat) (k : Mark) : Attempts ρ :=
  let now := a.mark o
  if m.token then a
  else if now.expected + now.unexpected = k.expected + k.unexpected + 1 then a
  else ((a.backTo o k).reach o).add (m.look == .negative) r o

end Attempts

end Transcribe.Grammar
