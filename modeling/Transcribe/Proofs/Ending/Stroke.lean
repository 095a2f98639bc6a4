/-
  Transcribe.Proofs.Ending.Stroke — strokes that write one kind of line break.

  A pen that is not inside a break and has written breaks of one kind only stays so (`Pen.Even`):
  what is copied lies between two such places of the source, a break that is written is the first of
  the source, and words have none.
  - `Stroke.Even`: what a stroke is given has no other breaks and leads into none.
  - `even_of_stroke`, `even_of_run`: what a stroke and a script keep.
-/

import Transcribe.Proofs.Ending.Break
import Transcribe.Proofs.Step

namespace Transcribe

open Text (Source breaks)

/-- The texts a stroke writes have no breaks but `e`, those it passes do not end inside one, and
neither does the place it moves to. -/
def Stroke.Even (e : String) (s : Source) : Stroke → Prop
  | .swap a b => a.toList.getLast? ≠ some '\r' ∧ (b = a ∨ Text.Even e b.toList)
  | .keepIf a => a.toList.getLast? ≠ some '\r'
  | .write t => Text.Even e t.toList
  | .moveTo o | .moveToLead o => s.Whole o
  | _ => True

structure Pen.Even (e : String) (s : Source) (p : Pen) : Prop where
  whole : s.Whole p.position
  text : Text.Even e p.sink.text.toList

namespace Pen.Even

variable {e : String} {s : Source} {p : Pen}

theorem write (h : p.Even e s) {t : String} (ht : Text.Even e t.toList) : (p.write t).Even e s :=
  ⟨h.whole, by simpa using h.text.append ht⟩

theorem moveTo (h : p.Even e s) {o : Nat} (ho : s.Whole o) : (p.moveTo o).Even e s := ⟨ho, h.text⟩

end Pen.Even

namespace Job

variable {j : Job} {e : String} {p q : Pen}

theorem even_writeSpace (h : p.Even e j.source) {cs : List Char} (hcs : Text.Even e cs) :
    (j.writeSpace cs p).Even e j.source := by
  have hdedent : ∀ k, Text.Even e (Text.dedent j.ruler p.dedent k cs) := by
    intro k b hb
    rw [Text.breaks_dedent] at hb
    exact hcs b hb
  unfold writeSpace
  dsimp only
  split
  · obtain ⟨w, hspread, hw⟩ := Text.exists_writeExpanded (Nat.lt_of_lt_of_le Nat.zero_lt_one
      (Nat.le_max_right j.profile.preferredIndent 1)) p.sink
      (Text.dedent j.ruler p.dedent (if p.sink.column = 0 then some 0 else none) cs)
    rw [hw]
    refine h.write fun b hb => ?_
    rw [String.toList_ofList, Text.breaks_spread hspread] at hb
    exact hdedent _ b hb
  · exact h.write (by simpa using hdedent _)

section Source

variable (hs : Text.Even e j.source.chars)
include hs

theorem even_copySpace {b : Bool} (hp : p.Even e j.source) (h : j.copySpace b p = .ok q) :
    q.Even e j.source := by
  obtain ⟨cs, hcs, rfl⟩ := copySpace_ok h
  have hstop := Source.whole_skipSpace b hp.whole
  exact (even_writeSpace hp (Source.even_slice hs hp.whole hstop hcs)).moveTo hstop

theorem even_copyBreak (hp : p.Even e j.source) (h : j.copyBreak p = .ok q) :
    q.Even e j.source := by
  obtain ⟨cs, hcs, rfl⟩ := copyBreak_ok h
  have hstop := Source.whole_skipBreak hp.whole
  exact (hp.write (by simpa using Source.even_slice hs hp.whole hstop hcs)).moveTo hstop

theorem even_copyComments (hp : p.Even e j.source) : (j.copyComments p).Even e j.source := by
  have hstop := Source.whole_skipSpace false hp.whole
  unfold copyComments
  dsimp only
  split
  · rename_i cs hcs
    split
    · exact hp
    · rename_i c rest hdrop
      have hc : (Text.isBlank c || Text.isBreak c) = false := by
        simpa [hdrop] using List.head?_dropWhile_not (fun c => Text.isBlank c || Text.isBreak c) cs
      have heven := Source.even_slice hs hp.whole hstop hcs
      rw [← List.takeWhile_append_dropWhile (p := fun c => Text.isBlank c || Text.isBreak c) (l := cs),
        hdrop] at heven
      refine (even_writeSpace hp (heven.of_append ?_).2).moveTo hstop
      rintro ⟨-, hhead⟩
      obtain rfl : c = '\n' := by simpa using hhead
      cases hc
  · exact hp

theorem even_swap {a b : String} (hp : p.Even e j.source) (hst : (Stroke.swap a b).Even e j.source)
    (h : j.stroke p (.swap a b) = .ok q) : q.Even e j.source := by
  obtain ⟨⟨cs, hcs⟩, rfl⟩ := swap_ok h
  obtain ⟨hlast, hb⟩ := hst
  have hstop := Source.whole_add hcs hp.whole fun hsplit => hlast hsplit.1
  refine (hp.moveTo hstop).write ?_
  rcases hb with rfl | hb
  · exact Source.even_slice hs hp.whole hstop (Source.slice?_eq_some hcs rfl)
  · exact hb

variable (hne : breaks j.source.chars ≠ [])
include hne

theorem even_newline (hp : p.Even e j.source) : (j.newline p).Even e j.source :=
  hp.write (hs.terminator hne)

theorem even_label {access : Java.Access} {member owner : Nat} (hp : p.Even e j.source)
    (h : j.label access member owner p = .ok q) : q.Even e j.source := by
  have hword : isLine (Java.word access ++ ":") = true := by cases access <;> rfl
  rcases label_ok h with ⟨-, mid, hmid, rfl⟩ | ⟨-, mid, mid', column, hmid, hmid', -, rfl⟩
  · exact (even_copySpace hs hp hmid).write (even_of_isLine (isLine_append hword rfl))
  · have heven := even_copyBreak hs (even_copySpace hs hp hmid) hmid'
    have hpad : Text.Even e (List.replicate (column - mid'.sink.column) ' ') := by
      refine .of_plain fun c hc => ?_
      rw [(List.mem_replicate.1 hc).2]
      rfl
    refine even_newline hs hne ?_
    refine (heven.write (t := String.ofList (List.replicate (column - mid'.sink.column) ' ')) ?_).write
      (even_of_isLine hword)
    simpa using hpad

/-- What one stroke keeps. -/
theorem even_of_stroke {st : Stroke} (hst : st.Even e j.source) (hp : p.Even e j.source)
    (h : j.stroke p st = .ok q) : q.Even e j.source := by
  cases st with
  | enter span =>
    obtain ⟨-, rfl⟩ := enter_eq_ok.1 h
    exact ⟨hp.whole, hp.text⟩
  | leave span =>
    obtain ⟨rfl, -⟩ := leave_eq_ok h
    exact ⟨hp.whole, hp.text⟩
  | swap a b => exact even_swap hs hp hst h
  | keepIf a =>
    rw [stroke] at h
    split at h
    · exact even_swap hs (a := a) (b := a) hp ⟨hst, .inl rfl⟩ h
    · cases h
      exact hp
  | write t =>
    cases h
    exact hp.write hst
  | newline =>
    cases h
    exact even_newline hs hne hp
  | closeLine count =>
    cases h
    split
    · exact hp
    · induction count with
      | zero => exact hp
      | succ n ih => exact even_newline hs hne (ih trivial)
  | copySpace | copyLine => exact even_copySpace hs hp h
  | copyDelimiter =>
    rw [stroke, copyDelimiter] at h
    cases hcopy : j.copySpace false p with
    | error e => rw [hcopy] at h; cases h
    | ok mid =>
      rw [hcopy] at h
      obtain rfl := Except.ok.inj h
      have hmid := even_copySpace hs hp hcopy
      split
      · exact hmid
      · exact hmid.write (even_of_isLine rfl)
  | copyComments =>
    cases h
    exact even_copyComments hs hp
  | copyCommentsOrSkip =>
    cases h
    have hcopy := even_copyComments hs hp
    split
    · exact hcopy
    · exact hcopy.moveTo (Source.whole_skipSpace_false _)
  | copyBreak => exact even_copyBreak hs hp h
  | skipSpace =>
    cases h
    exact hp.moveTo (Source.whole_skipSpace_false _)
  | skipLine =>
    cases h
    exact hp.moveTo (Source.whole_skipBreak (Source.whole_skipSpace true hp.whole))
  | skipBlankLines =>
    cases h
    exact hp.moveTo (Source.whole_skipBlankLines hp.whole)
  | moveTo o =>
    cases h
    exact hp.moveTo hst
  | moveToLead o =>
    cases h
    exact hp.moveTo (Source.whole_leadStart hst)
  | dedentBy o =>
    rw [stroke] at h
    split at h <;> cases h
    exact ⟨hp.whole, hp.text⟩
  | undent | trail | trailPast =>
    cases h
    exact ⟨hp.whole, hp.text⟩
  | label access member owner => exact even_label hs hne hp h
  | copyTrail =>
    rw [stroke] at h
    split at h
    · cases h
      exact hp
    · exact even_copySpace hs hp h
  | reject what | breach what => exact absurd h stop_ne_ok

/-- What a script keeps. -/
theorem even_of_run {r : Script} (hr : ∀ st ∈ r, st.Even e j.source) (hp : p.Even e j.source)
    (h : j.run r p = .ok q) : q.Even e j.source := by
  induction r generalizing p with
  | nil =>
    cases h
    exact hp
  | cons st r ih =>
    obtain ⟨mid, hst, hrest⟩ := run_cons_eq_ok.1 h
    obtain ⟨hhead, htail⟩ := List.forall_mem_cons.1 hr
    exact ih htail (even_of_stroke hs hne hhead hp hst) hrest

end Source

end Job

end Transcribe
