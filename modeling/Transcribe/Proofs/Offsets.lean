/-
  Transcribe.Proofs.Offsets — every offset that walking in a text leads to can be cut at.

  A walk from a boundary ends at a boundary, on the side it walks to. The comments of the table lie
  between boundaries and one behind the other, so a search that halves the table finds the comment
  that ends at an offset if there is one. Forward and backward walks see the same runs of space and
  comments: forward at every offset, and backward wherever the pass that finds comments is in code.

  Offsets count bytes, and a text can be cut only where a character begins. What is found byte by
  byte is found without cutting a character (`Built`: comments, line starts, line break), and every
  walk leads to an offset `Ahead` or `Behind` that the text can be read at (`Walks`).
  - `offsets_safe`: what a text is built with, and every walk in it, stays on boundaries.
  - `runs_agree`: walking back and forward again, and forward and back again.
-/

import Transcribe.Pen.Basic
import Transcribe.Proofs.Attribution
import Transcribe.Proofs.Bytes
import Transcribe.Proofs.Place

namespace Transcribe.Text

/-! ## The table in order -/

theorem pairwise_commentsFrom (r : Region) (o : Nat) (cs : List Char) :
    (commentsFrom r o cs).Pairwise fun x y => x.stop ≤ y.start := by
  have hbehind : ∀ {o : Nat} {cs : List Char} {x : Span}, x ∈ commentsFrom .code o cs →
      o ≤ x.start :=
    fun h => (le_start_of_mem_commentsFrom h).resolve_left (by simp [Region.start?])
  fun_induction commentsFrom r o cs with
  | case4 start o c cs _ ih =>
    refine List.pairwise_cons.2 ⟨fun y hy => ?_, ih⟩
    have := hbehind hy
    simp only
    omega
  | case6 start o cs ih => exact List.pairwise_cons.2 ⟨fun y hy => hbehind hy, ih⟩
  | case10 | case11 => exact List.pairwise_singleton _ _
  | case12 | case13 => exact .nil
  | _ => assumption

/-- Halves a table of spans in order, by comparing the stop of its middle with `e`, until one span
is left. -/
def halve (e : Nat) (xs : List Span) : Option Span :=
  if 1 < xs.length then
    if (xs.drop (xs.length / 2)).head?.any (e < ·.stop) then
      halve e (xs.take (xs.length - xs.length / 2))
    else halve e (xs.drop (xs.length / 2))
  else xs.head?.filter (·.stop == e)
termination_by xs.length
decreasing_by
  · simp only [List.length_take]; omega
  · simp only [List.length_drop]; omega

theorem find?_eq_take {e n : Nat} {xs : List Span} (h : ∀ y ∈ xs.drop n, e < y.stop) :
    xs.find? (·.stop == e) = (xs.take n).find? (·.stop == e) := by
  have hnone : (xs.drop n).find? (·.stop == e) = none := by
    refine List.find?_eq_none.2 fun y hy => ?_
    have := h y hy
    simp only [beq_iff_eq]
    omega
  conv_lhs => rw [← List.take_append_drop n xs, List.find?_append, hnone, Option.or_none]

theorem find?_eq_drop {e n : Nat} {xs : List Span} (h : ∀ x ∈ xs.take n, x.stop < e) :
    xs.find? (·.stop == e) = (xs.drop n).find? (·.stop == e) := by
  have hnone : (xs.take n).find? (·.stop == e) = none := by
    refine List.find?_eq_none.2 fun x hx => ?_
    have := h x hx
    simp only [beq_iff_eq]
    omega
  conv_lhs => rw [← List.take_append_drop n xs, List.find?_append, hnone, Option.none_or]

/-- The search finds the span that ends at `e`, if there is one. -/
theorem halve_eq_find? {e : Nat} {xs : List Span} (h : xs.Pairwise fun x y => x.stop < y.stop) :
    halve e xs = xs.find? (·.stop == e) := by
  fun_induction halve e xs with
  | case1 xs hlong hmid ih =>
    refine (ih (h.sublist (List.take_sublist _ _))).trans (find?_eq_take fun y hy => ?_).symm
    cases hdrop : xs.drop (xs.length / 2) with
    | nil => simp [hdrop] at hmid
    | cons x t =>
      have hlt : e < x.stop := by simpa [hdrop] using hmid
      -- what is left out lies behind the middle
      have hmem : y ∈ x :: t := by
        rw [← hdrop]
        exact List.drop_subset_drop_left xs (by omega) hy
      have hrest := List.pairwise_cons.1 (hdrop ▸ h.sublist (List.drop_sublist _ _))
      rcases List.mem_cons.1 hmem with rfl | hy
      · exact hlt
      · exact Nat.lt_trans hlt (hrest.1 y hy)
  | case2 xs hlong hmid ih =>
    refine (ih (h.sublist (List.drop_sublist _ _))).trans (find?_eq_drop fun x hx => ?_).symm
    cases hdrop : xs.drop (xs.length / 2) with
    | nil =>
      have := congrArg List.length hdrop
      simp only [List.length_drop, List.length_nil] at this
      omega
    | cons m t =>
      have hle : m.stop ≤ e := by simpa [hdrop] using hmid
      have hsplit : (xs.take (xs.length / 2) ++ m :: t).Pairwise fun x y => x.stop < y.stop := by
        rw [← hdrop, List.take_append_drop]
        exact h
      exact Nat.lt_of_lt_of_le ((List.pairwise_append.1 hsplit).2.2 x hx m List.mem_cons_self) hle
  | case3 xs hshort =>
    match xs with
    | [] => rfl
    | [x] => by_cases hx : x.stop = e <;> simp [hx]
    | _ :: _ :: _ => simp at hshort

namespace Source

variable {s : Source} {o p : Nat}

theorem pairwise_comments (s : Source) : s.comments.Pairwise fun x y => x.stop ≤ y.start := by
  rw [s.comments_eq]
  exact pairwise_commentsFrom _ _ _

/-- A search that halves the table is as good as one through all of it. -/
theorem commentBefore?_eq_halve (s : Source) (e : Nat) :
    s.commentBefore? e = (halve e s.comments).map (·.start) := by
  rw [halve_eq_find?, commentBefore?]
  refine s.pairwise_comments.imp_of_mem fun _ hy hle => ?_
  have := start_lt_stop hy
  omega

theorem commentBefore?_eq_some_iff {e b : Nat} :
    s.commentBefore? e = some b ↔ (⟨b, e⟩ : Span) ∈ s.comments := by
  have hone : ∀ x ∈ s.comments, ∀ y ∈ s.comments, x.stop = y.stop → x = y := by
    have hne : s.comments.Pairwise fun x y => x.stop ≠ y.stop := by
      refine s.pairwise_comments.imp_of_mem fun _ hy hle => ?_
      have := start_lt_stop hy
      omega
    exact fun x hx y hy => List.Pairwise.forall_of_forall_of_flip
      (R := fun x y => x.stop = y.stop → x = y) (fun _ _ _ => rfl)
      (hne.imp fun h heq => absurd heq h) (hne.imp fun h heq => absurd heq.symm h) hx hy
  rw [commentBefore?, Option.map_eq_some_iff]
  constructor
  · rintro ⟨c, hc, rfl⟩
    obtain rfl : c.stop = e := by simpa using List.find?_some hc
    exact List.mem_of_find?_eq_some hc
  · intro hmem
    cases hfind : s.comments.find? fun c => c.stop == e with
    | none => exact absurd (List.find?_eq_none.1 hfind _ hmem) (by simp)
    | some c =>
      have hstop : c.stop = e := by simpa using List.find?_some hfind
      exact ⟨c, rfl, by rw [hone c (List.mem_of_find?_eq_some hfind) _ hmem hstop]⟩

theorem boundary_comment {x : Span} (h : x ∈ s.comments) :
    s.Boundary x.start ∧ s.Boundary x.stop := by
  obtain ⟨cs, cs', hstart, hstop, -⟩ := commented_of_mem_comments h
  exact ⟨⟨cs, hstart⟩, ⟨cs', hstop⟩⟩

/-! ## Walks -/

def Ahead (s : Source) (o r : Nat) : Prop := s.Boundary r ∧ o ≤ r ∧ r ≤ s.size

def Behind (s : Source) (o r : Nat) : Prop := s.Boundary r ∧ r ≤ o

theorem InGap.ahead (h : s.InGap o p) : s.Ahead o p := ⟨h.boundary, h.le, le_size h.boundary⟩

theorem InGap.behind (h : s.InGap o p) : s.Behind p o := ⟨boundary_of_inGap_left h, h.le⟩

theorem skips_blankLength (cs : List Char) :
    ∃ cs', byteLength cs = blankLength cs + byteLength cs' ∧ Skips cs cs' := by
  induction cs with
  | nil => exact ⟨[], rfl, .refl⟩
  | cons c cs ih =>
    rw [blankLength]
    by_cases hc : isBlank c = true
    · obtain ⟨cs', hlen, hskips⟩ := ih
      have hspace : (isBlank c || isBreak c) = true := by simp [hc]
      refine ⟨cs', ?_, .head (.space cs hspace) hskips⟩
      rw [if_pos hc, byteLength_cons, utf8Size_of_space hspace]
      omega
    · exact ⟨c :: cs, by simp [hc], .refl⟩

theorem inGap_skipBlanks (h : s.Boundary o) : s.InGap o (s.skipBlanks o) := by
  obtain ⟨cs, hcs⟩ := h
  obtain ⟨cs', hlen, hskips⟩ := skips_blankLength cs
  simpa only [skipBlanks, forward, hcs] using inGap_add hcs hskips hlen

theorem inGap_blanksBack {n : Nat} (h : s.Boundary o) : s.InGap (s.blanksBack n o) o := by
  induction n generalizing o with
  | zero => exact .refl h
  | succ n ih =>
    rw [blanksBack]
    split
    · rename_i c hc
      split
      · rename_i hblank
        have hspace : (isBlank c || isBreak c) = true := by simp [hblank]
        obtain ⟨a, r, hcs, rfl⟩ := charBefore?_eq_some hc
        have hrest : s.rest? (byteLength a) = some (c :: r) := rest?_eq_some_iff.2 ⟨a, hcs, rfl⟩
        rw [utf8Size_of_space hspace, Nat.add_sub_cancel]
        refine (ih ⟨_, hrest⟩).trans ?_
        exact inGap_add hrest (.single (.space r hspace))
          (by rw [byteLength_cons, utf8Size_of_space hspace])
      · exact .refl h
    · exact .refl h

theorem inGap_skipBlanksBack (h : s.Boundary o) : s.InGap (s.skipBlanksBack o) o := by
  rw [skipBlanksBack, Nat.min_eq_left (le_size h)]
  exact inGap_blanksBack h

theorem ahead_lineEnd (h : s.Boundary o) : s.Ahead o (s.lineEnd o) := by
  obtain ⟨hend, hle⟩ := lineEndFrom_spec (dropBytes?_zero s.chars) (le_size h)
  exact ⟨hend, hle, le_size hend⟩

/-! ## Forward and backward -/

/-- At an offset inside a character every walk stays. -/
theorem skips_of_not_boundary (h : ¬ s.Boundary p) :
    (∀ b, s.skipSpace b p = p) ∧ (p ≤ s.size → s.skipSpaceBack p = p) := by
  constructor
  · intro b
    rw [skipSpace, forward]
    split
    · rename_i cs hcs
      exact absurd ⟨cs, hcs⟩ h
    · rfl
  · intro hle
    refine skipSpaceBack_of_stay hle ?_
    unfold stepBack
    split
    · rename_i b hb
      exact absurd (boundary_comment (commentBefore?_eq_some_iff.1 hb)).2 h
    · split
      · rename_i c hc
        obtain ⟨a, r, hcs, rfl⟩ := charBefore?_eq_some hc
        exact absurd ⟨r, rest?_eq_some_iff.2 ⟨a ++ [c], by simp [hcs], by simp⟩⟩ h
      · rfl

theorem skipSpace_le_skipSpace (h : s.Boundary p) (b : Bool) :
    s.skipSpace b p ≤ s.skipSpace false p := by
  rw [← skipSpace_skipSpace b h]
  exact le_skipSpace false _

/-- Walking over space twice is walking over it once. -/
theorem skipSpace_idem (b : Bool) (p : Nat) :
    s.skipSpace b (s.skipSpace b p) = s.skipSpace b p := by
  by_cases hp : s.Boundary p
  · cases b with
    | false => exact skipSpace_skipSpace false hp
    | true =>
      obtain ⟨cs, hcs⟩ := hp
      obtain ⟨g, r, rfl, hlen, hend⟩ := spaceLength_toBreak rfl .space cs
      have hrest := rest?_add hcs
      have hwalk : s.skipSpace true p = p + byteLength g := by
        simp only [skipSpace, forward, hcs, hlen]
      rw [hwalk]
      rcases hend with ⟨c, r, rfl, hc⟩ | hend
      · -- the walk has stopped at a line break
        have hnone : afterComment? (c :: r) = none := by
          cases hafter : afterComment? (c :: r) with
          | none => rfl
          | some t =>
            rw [eq_slash_of_afterComment? hafter] at hc
            cases hc
        simp only [skipSpace, forward, hrest, spaceLength_of_none hnone, if_pos hc, if_true,
          Nat.add_zero]
      · have hstay : s.skipSpace false (p + byteLength g) = p + byteLength g := by
          simp only [skipSpace, forward, hrest, hend, Nat.add_zero]
        have hle := skipSpace_le_skipSpace ⟨r, hrest⟩ true
        have hge := le_skipSpace (s := s) true (p + byteLength g)
        omega
  · rw [(skips_of_not_boundary hp).1, (skips_of_not_boundary hp).1]

theorem skipSpaceBack_idem (h : p ≤ s.size) :
    s.skipSpaceBack (s.skipSpaceBack p) = s.skipSpaceBack p := by
  by_cases hp : s.Boundary p
  · have hback := inGap_skipSpaceBack hp
    have hbound := boundary_of_inGap_left hback
    have hle := (inGap_stepBack hbound).le
    have hstay := skipSpaceBack_stays hp
    exact skipSpaceBack_of_stay (le_size hbound) (by omega)
  · rw [(skips_of_not_boundary hp).2 h, (skips_of_not_boundary hp).2 h]

theorem skipSpace_skipSpaceBack (h : p ≤ s.size) :
    s.skipSpace false (s.skipSpaceBack p) = s.skipSpace false p := by
  by_cases hp : s.Boundary p
  · exact (skipSpace_eq_of_inGap (inGap_skipSpaceBack hp)).symm
  · rw [(skips_of_not_boundary hp).2 h]

/-- Where the pass is in code, walking back from the end of a gap passes all of it. -/
theorem OnCode.skipSpaceBack_skipSpace_eq (h : s.OnCode p) :
    s.skipSpaceBack (s.skipSpace false p) = s.skipSpaceBack p := by
  have hle := le_size h.boundary
  rw [← skipSpace_skipSpaceBack hle]
  exact h.skipSpaceBack.skipSpaceBack_skipSpace (skipSpaceBack_idem hle)

/-- Forward and backward walks see the same runs of space and comments: walking back first does not
change where a walk forward ends, both stay where they have ended, and from every place that the
pass over the bytes of the text comes to outside literals and comments, walking forward first does
not change where a walk back ends. -/
theorem runs_agree (s : Source) :
    (∀ p ≤ s.size,
      s.skipSpace false (s.skipSpaceBack p) = s.skipSpace false p ∧
      (∀ toBreak, s.skipSpace toBreak (s.skipSpace toBreak p) = s.skipSpace toBreak p) ∧
      s.skipSpaceBack (s.skipSpaceBack p) = s.skipSpaceBack p) ∧
    ∃ pass, pass? s.chars = some pass ∧ pass.table = s.comments ∧
      ∀ p ∈ pass.visited, s.skipSpaceBack (s.skipSpace false p) = s.skipSpaceBack p := by
  refine ⟨fun p hp => ⟨skipSpace_skipSpaceBack hp, fun b => skipSpace_idem b p,
    skipSpaceBack_idem hp⟩, ?_⟩
  obtain ⟨vs, hpass, hvs⟩ := s.pass?_eq
  refine ⟨⟨vs, s.comments⟩, hpass, rfl, fun p hp => ?_⟩
  by_cases hbound : s.Boundary p
  · exact (hvs p hp hbound).skipSpaceBack_skipSpace_eq
  · rw [(skips_of_not_boundary hbound).1]

def mixedText : Source :=
  ofString "A" "é = \"// ü\" /* a */ // b\n  '\\ä' /*/ c"

/-- The pass comes to the blank between two comments of the text, which a walk from there and back
again crosses with both of them. -/
theorem runs_agree_mixed :
    20 ≤ mixedText.size ∧
    mixedText.skipSpace false (mixedText.skipSpaceBack 20) = mixedText.skipSpace false 20 ∧
    ∃ pass, pass? mixedText.chars = some pass ∧ 20 ∈ pass.visited ∧
      mixedText.skipSpaceBack (mixedText.skipSpace false 20) = mixedText.skipSpaceBack 20 := by
  obtain ⟨hwalks, pass, hpass, -, hvisited⟩ := runs_agree mixedText
  have hsize : 20 ≤ mixedText.size := by decide
  have hmem : 20 ∈ pass.visited := by
    have hvisits : (pass? mixedText.chars).any (fun p => p.visited.contains 20) = true := by
      decide +kernel
    rw [hpass] at hvisits
    simpa using hvisits
  exact ⟨hsize, (hwalks 20 hsize).1, pass, hpass, hmem, hvisited 20 hmem⟩

/-! ## Cutting -/

structure Built (s : Source) : Prop where
  /-- The pass over the bytes finds the table. -/
  pass : ∃ vs, pass? s.chars = some ⟨vs, s.comments⟩
  lineBreak : lineBreak? s.chars = some s.terminator
  ends : ∀ x ∈ s.comments, s.Boundary x.start ∧ s.Boundary x.stop ∧ x.start < x.stop
  /-- The comments are apart and in order. -/
  apart : s.comments.Pairwise fun x y => x.stop ≤ y.start
  search : ∀ e, s.commentBefore? e = (halve e s.comments).map (·.start)
  ending : ∀ e b, s.commentBefore? e = some b ↔ (⟨b, e⟩ : Span) ∈ s.comments

/-- Every walk from `o` ends at a boundary on its side, and everything read at `o` can be read. -/
structure Walks (s : Source) (o : Nat) : Prop where
  skipSpace : ∀ toBreak, s.Ahead o (s.skipSpace toBreak o)
  /-- Nor does the walk over the bytes cut a character. -/
  walk : ∀ toBreak, s.walk? toBreak o = some (s.skipSpace toBreak o)
  skipBreak : s.Ahead o (s.skipBreak o)
  skipBlanks : s.Ahead o (s.skipBlanks o)
  skipBlankLines : s.Ahead o (s.skipBlankLines o)
  lineEnd : s.Ahead o (s.lineEnd o)
  skipSpaceBack : s.Behind o (s.skipSpaceBack o)
  skipBlanksBack : s.Behind o (s.skipBlanksBack o)
  lineStart : s.Behind o (s.lineStart o)
  column : ∀ r, ∃ n, s.column? r o = some n
  place : ∀ r, ∃ place, s.place? r o = some place
  /-- A text that is expected at `o` stands there, or the mismatch is reported. -/
  expect : ∀ profile t (p : Pen), p.position = o →
    (Job.mk s profile).expect t p = .ok (p.moveTo (o + byteLength t.toList)) ∨
    ∃ found place, (Job.mk s profile).expect t p = .error ⟨.breached (.mismatch t found) place, p⟩
  copySpace : ∀ profile toBreak (p : Pen), p.position = o →
    ∃ q, (Job.mk s profile).copySpace toBreak p = .ok q ∧ q.position = s.skipSpace toBreak o

theorem built (s : Source) : s.Built where
  pass := let ⟨vs, hpass, _⟩ := s.pass?_eq; ⟨vs, hpass⟩
  lineBreak := lineBreak?_eq _
  ends _ hx := ⟨(boundary_comment hx).1, (boundary_comment hx).2, start_lt_stop hx⟩
  apart := s.pairwise_comments
  search := s.commentBefore?_eq_halve
  ending _ _ := commentBefore?_eq_some_iff

theorem expect_cases (h : s.Boundary o) (profile : Target.Profile) (t : String) {p : Pen}
    (hp : p.position = o) :
    (Job.mk s profile).expect t p = .ok (p.moveTo (o + byteLength t.toList)) ∨
    ∃ found place,
      (Job.mk s profile).expect t p = .error ⟨.breached (.mismatch t found) place, p⟩ := by
  subst hp
  obtain ⟨place, hplace, -⟩ := exists_place (Job.mk s profile).ruler h
  obtain ⟨cs, hcs⟩ := h
  simp only [Job.expect, hcs, Job.breach, Job.stop, hplace]
  split
  · exact .inl rfl
  · exact .inr ⟨_, _, rfl⟩

theorem exists_copySpace (h : s.Boundary o) (profile : Target.Profile) (toBreak : Bool) {p : Pen}
    (hp : p.position = o) :
    ∃ q, (Job.mk s profile).copySpace toBreak p = .ok q ∧ q.position = s.skipSpace toBreak o := by
  subst hp
  have hgap := inGap_skipSpace toBreak h
  obtain ⟨cs, hcs⟩ := exists_slice h hgap.boundary hgap.le
  simp only [Job.copySpace, hcs]
  exact ⟨_, rfl, rfl⟩

/-- Every offset that a text is built with, or that a walk from a boundary leads to, is a boundary:
nothing is ever cut inside a character. -/
theorem offsets_safe (s : Source) : s.Built ∧ ∀ o, s.Boundary o → s.Walks o := by
  refine ⟨s.built, fun o h => ?_⟩
  exact {
    skipSpace := fun b => (inGap_skipSpace b h).ahead
    walk := fun b => walk?_eq b h
    skipBreak := (inGap_skipBreak h).ahead
    skipBlanks := (inGap_skipBlanks h).ahead
    skipBlankLines := (inGap_skipBlankLines h).ahead
    lineEnd := ahead_lineEnd h
    skipSpaceBack := (inGap_skipSpaceBack h).behind
    skipBlanksBack := (inGap_skipBlanksBack h).behind
    lineStart := ⟨boundary_lineStart o, lineStart_le o⟩
    column := fun r => exists_column r h
    place := fun r => let ⟨place, hplace, _⟩ := exists_place r h; ⟨place, hplace⟩
    expect := fun profile t _ hp => expect_cases h profile t hp
    copySpace := fun profile b _ hp => exists_copySpace h profile b hp }

/-- The place behind a character of two bytes is a boundary, and the place inside it is none. -/
theorem offsets_safe_mixed :
    mixedText.Boundary 2 ∧ mixedText.rest? 1 = none ∧ mixedText.Built ∧ mixedText.Walks 2 := by
  obtain ⟨hbuilt, hwalks⟩ := offsets_safe mixedText
  have hbound : mixedText.Boundary 2 := ⟨mixedText.chars.drop 1, by decide⟩
  exact ⟨hbound, by decide, hbuilt, hwalks 2 hbound⟩

end Source

end Transcribe.Text
