/-
  Transcribe.Proofs.Bracket — the brackets of a text outside its comments and literals.

  The pass that finds comments also says which brackets are code: `brackets` has those that it reads
  in code, in order, from any state of the pass. They are `Nested` if each one that is opened is
  closed by its counterpart, behind the ones opened after it. `unwinds` checks the same with a stack
  of the closing brackets that are awaited, innermost first, so nesting can be decided.
  - `brackets_append`: the brackets of two texts, the second read as behind code.
  - `nested_iff_unwinds`: nesting is what a stack of awaited brackets checks.
-/

import Transcribe.Proofs.Scan

namespace Transcribe.Text

/-! ## Nesting -/

def closer? : Char → Option Char
  | '(' => some ')'
  | '[' => some ']'
  | '\x7b' => some '\x7d'
  | _ => none

def bracketChars : List Char := ['(', ')', '[', ']', '\x7b', '\x7d']

def isBracket (c : Char) : Bool := bracketChars.contains c

def isBare (w : List Char) : Bool := w.all fun c => !isBracket c

theorem isBare_append {v w : List Char} (hv : isBare v = true) (hw : isBare w = true) :
    isBare (v ++ w) = true := by
  rw [isBare, List.all_append, Bool.and_eq_true_iff]
  exact ⟨hv, hw⟩

/-- Text from a class of characters that has no brackets. -/
theorem isBare_of_class {p : Char → Bool} (hp : bracketChars.all (fun b => !p b) = true)
    {w : List Char} (h : ∀ c ∈ w, p c = true) : isBare w = true := by
  refine List.all_eq_true.2 fun c hc => ?_
  by_contra hin
  have hnot := List.all_eq_true.1 hp c (by simpa [isBracket] using hin)
  simp [h c hc] at hnot

inductive Nested : List Char → Prop where
  | nil : Nested []
  | pair {o c : Char} {inside behind : List Char} (hc : closer? o = some c) (hin : Nested inside)
      (hbehind : Nested behind) : Nested (o :: (inside ++ c :: behind))

namespace Nested

theorem append {v w : List Char} (hv : Nested v) (hw : Nested w) : Nested (v ++ w) := by
  induction hv with
  | nil => exact hw
  | @pair o c inside behind hc hin _ _ ih =>
    rw [List.cons_append, List.append_assoc, List.cons_append]
    exact .pair hc hin ih

theorem enclose {o c : Char} {w : List Char} (hc : closer? o = some c) (hw : Nested w) :
    Nested (o :: (w ++ [c])) := .pair hc hw .nil

end Nested

/-- Whether brackets close the awaited ones, innermost first, and all that they open. -/
def unwinds : List Char → List Char → Bool
  | awaited, [] => awaited.isEmpty
  | awaited, c :: cs =>
    match closer? c with
    | some d => unwinds (d :: awaited) cs
    | none =>
      match awaited with
      | [] => false
      | d :: awaited => c == d && unwinds awaited cs

theorem unwinds_open {o c : Char} (hc : closer? o = some c) (awaited cs : List Char) :
    unwinds awaited (o :: cs) = unwinds (c :: awaited) cs := by
  simp [unwinds, hc]

theorem closer?_closer {o c : Char} (hc : closer? o = some c) : closer? c = none := by
  unfold closer? at hc
  split at hc <;> cases hc <;> rfl

theorem unwinds_close {c : Char} (hc : closer? c = none) (awaited cs : List Char) :
    unwinds (c :: awaited) (c :: cs) = unwinds awaited cs := by
  simp [unwinds, hc]

/-- Nested brackets leave what is awaited as it was. -/
theorem Nested.unwinds_append {w : List Char} (hw : Nested w) (awaited v : List Char) :
    unwinds awaited (w ++ v) = unwinds awaited v := by
  induction hw generalizing awaited v with
  | nil => rfl
  | @pair o c inside behind hc _ _ ih ih' =>
    rw [List.cons_append, List.append_assoc, List.cons_append, unwinds_open hc, ih,
      unwinds_close (closer?_closer hc), ih']

/-- The awaited brackets stand in a text one behind the other, with nested ones between them. -/
def Unwound : List Char → List Char → Prop
  | [], w => Nested w
  | d :: awaited, w => ∃ u v, w = u ++ d :: v ∧ Nested u ∧ Unwound awaited v

theorem Unwound.behind {u : List Char} (hu : Nested u) {awaited v : List Char}
    (hv : Unwound awaited v) : Unwound awaited (u ++ v) := by
  cases awaited with
  | nil => exact hu.append hv
  | cons d awaited =>
    obtain ⟨u', v', rfl, hu', hv'⟩ := hv
    exact ⟨u ++ u', v', by rw [List.append_assoc], hu.append hu', hv'⟩

theorem unwound_of_unwinds {awaited w : List Char} (h : unwinds awaited w = true) :
    Unwound awaited w := by
  induction w generalizing awaited with
  | nil =>
    obtain rfl : awaited = [] := by simpa [unwinds] using h
    exact .nil
  | cons c w ih =>
    cases hc : closer? c with
    | some d =>
      -- what `c` opens is the first that `w` closes
      obtain ⟨u, v, rfl, hu, hv⟩ := ih (unwinds_open hc awaited w ▸ h)
      have := Unwound.behind (.enclose hc hu) hv
      simpa using this
    | none =>
      cases awaited with
      | nil => simp [unwinds, hc] at h
      | cons d awaited =>
        have h : c = d ∧ unwinds awaited w = true := by simpa [unwinds, hc] using h
        exact ⟨[], w, by rw [h.1]; rfl, .nil, ih h.2⟩

theorem nested_iff_unwinds {w : List Char} : Nested w ↔ unwinds [] w = true := by
  refine ⟨fun h => ?_, fun h => unwound_of_unwinds h⟩
  have := h.unwinds_append [] []
  rwa [List.append_nil] at this

instance (w : List Char) : Decidable (Nested w) := decidable_of_iff _ nested_iff_unwinds.symm

example : Nested ['\x7b', '(', '[', ']', ')', '\x7d'] ∧ ¬ Nested ['(', '[', ')', ']'] := by decide

/-! ## Brackets of code -/

namespace Scan

def reads : Scan → Bool
  | .code | .slash => true
  | _ => false

def brackets : Scan → List Char → List Char
  | _, [] => []
  | m, c :: cs => (if m.reads && isBracket c then [c] else []) ++ brackets (m.next c) cs

@[simp] theorem brackets_nil (m : Scan) : m.brackets [] = [] := rfl

theorem brackets_cons_of_not {m : Scan} {c : Char} (hc : isBracket c = false) (cs : List Char) :
    m.brackets (c :: cs) = (m.next c).brackets cs := by
  simp [brackets, hc]

theorem brackets_cons_inside {m : Scan} (hm : m.reads = false) (c : Char) (cs : List Char) :
    m.brackets (c :: cs) = (m.next c).brackets cs := by
  simp [brackets, hm]

theorem brackets_append (m : Scan) (a b : List Char) :
    m.brackets (a ++ b) = m.brackets a ++ (m.finish a).brackets b := by
  induction a generalizing m with
  | nil => rfl
  | cons c a ih =>
    rw [List.cons_append, brackets, brackets, ih, List.append_assoc]
    rfl

theorem not_isBracket_of_space {c : Char} (h : (isBlank c || isBreak c) = true) :
    isBracket c = false := by
  simp only [isBlank, isBreak, Bool.or_eq_true, beq_iff_eq] at h
  rcases h with ((rfl | rfl) | rfl) | rfl | rfl <;> rfl

/-- Text that is read as behind code has the brackets it has there. -/
theorem brackets_of_settles {m : Scan} {b : List Char} (h : m.Settles b) :
    m.brackets b = brackets .code b := by
  cases b with
  | nil => rfl
  | cons c cs =>
    have hc := settles_cons.1 h
    have hnext : m.next c = next .code c := (next_of_settles hc).1
    by_cases hm : m.reads = true
    · rw [brackets, brackets, hnext, hm]
      rfl
    · -- a comment or a literal is ended by a line break only
      have hbreak : isBreak c = true := by
        cases m with
        | code | slash => exact absurd rfl hm
        | line acc | literal q => exact hc
        | block acc | star acc | escape q => cases hc
      have hnot := not_isBracket_of_space (by simp [hbreak] : (isBlank c || isBreak c) = true)
      rw [brackets_cons_of_not hnot, brackets_cons_of_not hnot, hnext]

/-- Behind a star that does not end its comment the pass is in the comment as before. -/
theorem brackets_star_of_head {acc cs : List Char} (h : ∀ r, cs ≠ '/' :: r) :
    (star acc).brackets cs = (block acc).brackets cs := by
  cases cs with
  | nil => rfl
  | cons c r =>
    have hc : c ≠ '/' := fun hc => h r (by rw [hc])
    rw [brackets_cons_inside rfl, brackets_cons_inside rfl]
    simp [next, hc]

theorem brackets_of_isBare {m : Scan} {w : List Char} (h : isBare w = true) :
    m.brackets w = [] := by
  induction w generalizing m with
  | nil => rfl
  | cons c w ih =>
    obtain ⟨hc, hw⟩ := Bool.and_eq_true_iff.1 h
    rw [brackets_cons_of_not (by simpa using hc)]
    exact ih hw

theorem brackets_spaces {m : Scan} (n : Nat) : m.brackets (List.replicate n ' ') = [] := by
  refine brackets_of_isBare (List.all_eq_true.2 fun c hc => ?_)
  rw [List.eq_of_mem_replicate hc]
  rfl

end Scan

end Transcribe.Text
