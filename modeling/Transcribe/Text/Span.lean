/-
  Transcribe.Text.Span — a stretch of a text between two byte offsets, the end excluded.
-/

namespace Transcribe.Text

structure Span where
  start : Nat
  stop : Nat
  deriving Repr, DecidableEq, Inhabited

namespace Span

/-- Bytes covered; a span that ends before it starts covers none. -/
def length (s : Span) : Nat := s.stop - s.start

def isEmpty (s : Span) : Bool := s.stop ≤ s.start

def join (a b : Span) : Span := ⟨min a.start b.start, max a.stop b.stop⟩

def contains (s : Span) (o : Nat) : Bool := s.start ≤ o && o < s.stop

@[simp] theorem join_start (a b : Span) : (a.join b).start = min a.start b.start := rfl
@[simp] theorem join_stop (a b : Span) : (a.join b).stop = max a.stop b.stop := rfl

end Span

end Transcribe.Text
