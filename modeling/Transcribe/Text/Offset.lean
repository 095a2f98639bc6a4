/-
  Transcribe.Text.Offset — byte offsets into a list of characters.

  A text is its list of characters, and an offset counts the bytes of UTF-8 before it. An
  offset is a boundary when a character starts there or the text ends there; cutting a text
  anywhere else gives `none`.
  - `dropBytes?_byteLength_append`: the boundaries are the byte lengths of the initial parts.
  - `slice?_append`: the slice between two boundaries is what stands between them.
-/

import Transcribe.Text.Span

namespace Transcribe.Text

def byteLength : List Char → Nat
  | [] => 0
  | c :: cs => c.utf8Size + byteLength cs

def dropBytes? : Nat → List Char → Option (List Char)
  | 0, cs => some cs
  | _ + 1, [] => none
  | n + 1, c :: cs => if c.utf8Size ≤ n + 1 then dropBytes? (n + 1 - c.utf8Size) cs else none

def takeBytes? : Nat → List Char → Option (List Char)
  | 0, _ => some []
  | _ + 1, [] => none
  | n + 1, c :: cs =>
    if c.utf8Size ≤ n + 1 then (takeBytes? (n + 1 - c.utf8Size) cs).map (c :: ·) else none

/-- The characters of a span, if both of its ends are boundaries in order. -/
def slice? (cs : List Char) (s : Span) : Option (List Char) :=
  if s.start ≤ s.stop then (dropBytes? s.start cs).bind (takeBytes? (s.stop - s.start)) else none

def charBefore? : Nat → List Char → Option Char
  | _, [] => none
  | o, c :: cs =>
    if o < c.utf8Size then none
    else if o = c.utf8Size then some c
    else charBefore? (o - c.utf8Size) cs

/-! ## Small lemmas -/

@[simp] theorem byteLength_nil : byteLength [] = 0 := rfl

@[simp] theorem byteLength_cons (c : Char) (cs : List Char) :
    byteLength (c :: cs) = c.utf8Size + byteLength cs := rfl

@[simp] theorem byteLength_append (a b : List Char) :
    byteLength (a ++ b) = byteLength a + byteLength b := by
  induction a with
  | nil => simp
  | cons c a ih => simp only [List.cons_append, byteLength_cons, ih]; omega

@[simp] theorem dropBytes?_zero (cs : List Char) : dropBytes? 0 cs = some cs := by
  cases cs <;> rfl

@[simp] theorem takeBytes?_zero (cs : List Char) : takeBytes? 0 cs = some [] := by
  cases cs <;> rfl

theorem dropBytes?_cons_add (c : Char) (n : Nat) (cs : List Char) :
    dropBytes? (c.utf8Size + n) (c :: cs) = dropBytes? n cs := by
  have hc := c.utf8Size_pos
  obtain ⟨m, hm⟩ : ∃ m, c.utf8Size + n = m + 1 := ⟨c.utf8Size + n - 1, by omega⟩
  rw [hm, dropBytes?, if_pos (by omega)]
  congr 1; omega

theorem takeBytes?_cons_add (c : Char) (n : Nat) (cs : List Char) :
    takeBytes? (c.utf8Size + n) (c :: cs) = (takeBytes? n cs).map (c :: ·) := by
  have hc := c.utf8Size_pos
  obtain ⟨m, hm⟩ : ∃ m, c.utf8Size + n = m + 1 := ⟨c.utf8Size + n - 1, by omega⟩
  rw [hm, takeBytes?, if_pos (by omega)]
  congr 2; omega

/-- The byte length of an initial part is a boundary, with the rest behind it. -/
@[simp] theorem dropBytes?_byteLength_append (a b : List Char) :
    dropBytes? (byteLength a) (a ++ b) = some b := by
  induction a with
  | nil => simp
  | cons c a ih => simp only [List.cons_append, byteLength_cons, dropBytes?_cons_add, ih]

@[simp] theorem takeBytes?_byteLength_append (a b : List Char) :
    takeBytes? (byteLength a) (a ++ b) = some a := by
  induction a with
  | nil => simp
  | cons c a ih => simp [takeBytes?_cons_add, ih]

/-- Every boundary is the byte length of an initial part. -/
theorem eq_append_of_dropBytes? {n : Nat} {cs r : List Char} (h : dropBytes? n cs = some r) :
    ∃ a, cs = a ++ r ∧ n = byteLength a := by
  induction cs generalizing n with
  | nil =>
    cases n with
    | zero => exact ⟨[], by simpa using h⟩
    | succ n => simp [dropBytes?] at h
  | cons c cs ih =>
    cases n with
    | zero => exact ⟨[], by simpa using h⟩
    | succ n =>
      rw [dropBytes?] at h
      split at h
      · obtain ⟨a, rfl, hn⟩ := ih h
        exact ⟨c :: a, rfl, by simp only [byteLength_cons]; omega⟩
      · cases h

/-- The slice between two boundaries is what stands between them. -/
theorem slice?_append (a b r : List Char) :
    slice? (a ++ b ++ r) ⟨byteLength a, byteLength a + byteLength b⟩ = some b := by
  simp [slice?]

end Transcribe.Text
