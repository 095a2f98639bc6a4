/-
  Transcribe.Proofs.Attribution — what stands between two tokens is divided among them.

  The token before takes the space and comments on its own line, the token behind takes all from
  the next line on. Both look at the gap from their own end: one walks forward to the end of the
  line, the other back through the table of comments and forward again. They meet at one line break.

  A gap is `Divided` if it is three parts one behind the other: what the walk along the line passes,
  one line break (`OneBreak`: `\n`, `\r\n`, or a `\r` with no `\n` behind it), and what the lead of
  the second token holds. Where the two tokens stand on one line the first part is all there is.
  The walk back goes by the table, so it needs places at which the pass that makes the table is in
  code; `codeOffsets` lists them for a text, and a parse puts both ends of every token among them.
  - `OnCode.inGap`: at every place between two tokens the pass is in code.
  - `OnCode.skipSpaceBack_skipSpace`: walking back from the end of a gap leads to its start.
  - `gap_divided`: the parts that belong to the two tokens, with one line break between them.
-/

import Transcribe.Proofs.Lead

namespace Transcribe.Text

open Relation (ReflTransGen)

/-! ## Places in code -/

/-- The places from `o` on that the pass comes to in code, where `cs` is the text from there. It
leaves a line comment, and a literal that is not closed on its line, before the line break. -/
def codeOffsets : Region → Nat → List Char → List Nat
  | .code, o, '/' :: '/' :: cs => o :: codeOffsets (.line o) (o + 2) cs
  | .code, o, '/' :: '*' :: cs => o :: codeOffsets (.block o) (o + 2) cs
  | .code, o, c :: cs =>
    o :: codeOffsets (if isQuote c then .literal c else .code) (o + c.utf8Size) cs
  | .line start, o, c :: cs =>
    if isBreak c then o :: codeOffsets .code (o + c.utf8Size) cs
    else codeOffsets (.line start) (o + c.utf8Size) cs
  | .block _, o, '*' :: '/' :: cs => codeOffsets .code (o + 2) cs
  | .block start, o, c :: cs => codeOffsets (.block start) (o + c.utf8Size) cs
  | .literal quote, o, '\\' :: c :: cs => codeOffsets (.literal quote) (o + 1 + c.utf8Size) cs
  | .literal quote, o, c :: cs =>
    if c == quote then codeOffsets .code (o + c.utf8Size) cs
    else if isBreak c then o :: codeOffsets .code (o + c.utf8Size) cs
    else codeOffsets (.literal quote) (o + c.utf8Size) cs
  | .literal _, _, [] => []
  | _, o, [] => [o]

theorem le_of_mem_codeOffsets {r : Region} {o e : Nat} {cs : List Char}
    (h : e ∈ codeOffsets r o cs) : o ≤ e := by
  fun_induction codeOffsets r o cs with
  | case1 _ _ ih | case2 _ _ ih | case3 _ _ _ _ _ ih | case4 _ _ _ _ _ ih =>
    rcases List.mem_cons.1 h with rfl | h
    · exact Nat.le_refl _
    · have := ih h
      omega
  | case10 _ _ _ _ _ _ _ ih =>
    rcases List.mem_cons.1 h with rfl | h
    · exact Nat.le_refl _
    · have := ih h
      omega
  | case12 => cases h
  | case13 => exact Nat.le_of_eq (List.mem_singleton.1 h).symm
  | _ =>
    rename_i ih
    have := ih h
    omega

/-- At the end of a line comment, or of a literal that is not closed, the pass is in code before
the line break. -/
theorem codeAt_break {r : Region} {o : Nat} {c : Char} {cs : List Char} {xs : List Span}
    (hc : isBreak c = true)
    (hpass : commentsFrom r o (c :: cs) = xs ++ commentsFrom .code (o + c.utf8Size) cs)
    (hxs : ∀ y ∈ xs, y.stop ≤ o) : CodeAt r o (c :: cs) o :=
  ⟨xs, [], c :: cs, rfl, rfl, by rw [hpass, Scan.commentsFrom_code_break hc], hxs⟩

theorem codeAt_of_mem_codeOffsets {r : Region} {o e : Nat} {cs : List Char}
    (h : e ∈ codeOffsets r o cs) : CodeAt r o cs e := by
  have hone : '\\'.utf8Size = 1 := rfl
  -- The cases are those of the pass: each reads `v` and enters `l` into the table.
  fun_induction codeOffsets r o cs with
  | case1 o cs ih =>
    rcases List.mem_cons.1 h with rfl | h
    · exact codeAt_self _ _
    · exact .append (v := ['/', '/']) (l := []) (ih h) rfl (by simp)
  | case2 o cs ih =>
    rcases List.mem_cons.1 h with rfl | h
    · exact codeAt_self _ _
    · exact .append (v := ['/', '*']) (l := []) (ih h) rfl (by simp)
  | case3 o c cs h₁ h₂ ih =>
    rcases List.mem_cons.1 h with rfl | h
    · exact codeAt_self _ _
    · refine .append (v := [c]) (l := []) (ih h) ?_ (by simp)
      rw [List.singleton_append, commentsFrom]
      · rfl
      · exact h₁
      · exact h₂
  | case4 start o c cs hc ih =>
    have hpass : commentsFrom (.line start) o (c :: cs)
        = [⟨start, o⟩] ++ commentsFrom .code (o + c.utf8Size) cs := by simp [commentsFrom, hc]
    rcases List.mem_cons.1 h with rfl | h
    · exact codeAt_break hc hpass (by simp)
    · have := le_of_mem_codeOffsets h
      refine .append (v := [c]) (ih h) hpass ?_
      simp only [List.mem_singleton, forall_eq]
      omega
  | case5 start o c cs hc ih =>
    exact .append (v := [c]) (l := []) (ih h) (by simp [commentsFrom, hc]) (by simp)
  | case6 start o cs ih =>
    have := le_of_mem_codeOffsets h
    exact .append (v := ['*', '/']) (l := [⟨start, o + 2⟩]) (ih h) rfl (by simpa using this)
  | case7 start o c cs hc ih =>
    refine .append (v := [c]) (l := []) (ih h) ?_ (by simp)
    rw [List.singleton_append, commentsFrom]
    · rfl
    · exact hc
  | case8 quote o c cs ih =>
    have hlen : o + byteLength ['\\', c] = o + 1 + c.utf8Size := by simp [hone, Nat.add_assoc]
    refine .append (v := ['\\', c]) (l := []) (m := .literal quote) ?_ ?_ (by simp)
    · rw [hlen]
      exact ih h
    · rw [hlen]
      rfl
  | case9 quote o c cs hesc hc ih =>
    refine .append (v := [c]) (l := []) (ih h) ?_ (by simp)
    rw [List.singleton_append, commentsFrom, if_pos (by simp [hc])]
    · rfl
    · exact hesc
  | case10 quote o c cs hesc hq hc ih =>
    have hpass : commentsFrom (.literal quote) o (c :: cs)
        = [] ++ commentsFrom .code (o + c.utf8Size) cs := by
      rw [commentsFrom, if_pos (by simp [hc])]
      · rfl
      · exact hesc
    rcases List.mem_cons.1 h with rfl | h
    · exact codeAt_break hc hpass (by simp)
    · exact .append (v := [c]) (ih h) hpass (by simp)
  | case11 quote o c cs hesc hq hc ih =>
    refine .append (v := [c]) (l := []) (ih h) ?_ (by simp)
    rw [List.singleton_append, commentsFrom, if_neg (by simp [hq, hc])]
    · rfl
    · exact hesc
  | case12 => cases h
  | case13 r o hr =>
    obtain rfl := List.mem_singleton.1 h
    cases r with
    | code => exact codeAt_self _ _
    | line start | block start => exact ⟨[⟨start, e⟩], [], [], rfl, rfl, rfl, by simp⟩
    | literal quote => exact absurd rfl (hr quote)

namespace Source

variable {s : Source} {e o x : Nat}

/-- Where the pass comes to in code, it is in code. -/
theorem onCode_of_mem_codeOffsets (h : e ∈ codeOffsets .code 0 s.chars) : s.OnCode e := by
  obtain ⟨before, w, t, hcs, he, hpass, hbefore⟩ := codeAt_of_mem_codeOffsets h
  refine ⟨before, t, rest?_eq_some_iff.2 ⟨w, hcs, by simpa using he⟩, ?_, hbefore⟩
  rw [s.comments_eq]
  exact hpass

/-- Space and comments lead from one place in code to another. -/
theorem OnCode.inGap (h : s.OnCode o) (hgap : s.InGap o x) : s.OnCode x := by
  obtain ⟨cs, cs', ho, hx, hskips⟩ := hgap
  induction hskips using ReflTransGen.head_induction_on generalizing o with
  | refl =>
    have hsame : o = x := by
      have := add_byteLength ho
      have := add_byteLength hx
      omega
    exact hsame ▸ h
  | head hskip _ ih =>
    obtain ⟨w, xs, rfl, hpass, hone⟩ := commentsFrom_skip hskip o
    have hxs : ∀ y ∈ xs, y.stop ≤ o + byteLength w := by
      rcases hone with ⟨-, rfl⟩ | rfl <;> simp
    exact ih (h.passes ho hpass hxs).1 (rest?_add ho)

/-! ## Both ends of a gap -/

/-- At the end of a walk over space a step back is possible. -/
theorem OnCode.stepBack_skipSpace (h : s.OnCode x) (hmove : x < s.skipSpace false x) :
    s.stepBack (s.skipSpace false x) < s.skipSpace false x := by
  induction hn : s.skipSpace false x - x using Nat.strongRecOn generalizing x with
  | ind n ih =>
    obtain ⟨y, hxy, hy, hsame, hback, -⟩ := h.step hmove
    rw [← hsame] at hn ⊢
    by_cases hmove' : y < s.skipSpace false y
    · exact ih (s.skipSpace false y - y) (by omega) hy hmove' rfl
    · have hend : s.skipSpace false y = y := by
        have := le_skipSpace (s := s) false y
        omega
      rwa [hend]

/-- Walking back from the end of a gap leads to its start. -/
theorem OnCode.skipSpaceBack_skipSpace (h : s.OnCode e) (hback : s.skipSpaceBack e = e) :
    s.skipSpaceBack (s.skipSpace false e) = e := by
  have hgap := inGap_skipSpace false h.boundary
  have hend := h.inGap hgap
  have hle := h.le_skipSpaceBack hback hend hgap.le
  have hstay := skipSpaceBack_stays hend.boundary
  by_contra hne
  -- The walk back stopped short at a place behind `e`; the walk forward does not stop before it.
  have hstop := h.skipSpace_le hend.skipSpaceBack hle (.inr ⟨hstay, by omega⟩)
  have hsame : s.skipSpaceBack (s.skipSpace false e) = s.skipSpace false e := by
    have := (inGap_skipSpaceBack hend.boundary).le
    omega
  rw [hsame] at hstay hne
  exact hstay (h.stepBack_skipSpace (by omega))

/-! ## The end of a line -/

/-- A walk to the end of the line ends at a line break or where every walk over space ends. -/
theorem spaceLength_toBreak {b : Bool} (hb : b = true) (i : Inside) (cs : List Char) :
    ∃ g r, cs = g ++ r ∧ spaceLength b i cs = byteLength g ∧
      ((∃ c r', r = c :: r' ∧ isBreak c = true) ∨ spaceLength false .space r = 0) := by
  have h1 : '*'.utf8Size = 1 := rfl
  have h2 : '/'.utf8Size = 1 := rfl
  fun_induction spaceLength b i cs with
  | case1 cs ih | case2 cs ih =>
    obtain ⟨g, r, rfl, hlen, hend⟩ := ih
    exact ⟨_ :: _ :: g, r, rfl, by rw [hlen]; simp only [byteLength_cons]; omega, hend⟩
  | case10 cs ih =>
    obtain ⟨g, r, rfl, hlen, hend⟩ := ih
    exact ⟨_ :: _ :: g, r, rfl, by rw [hlen]; simp only [byteLength_cons]; omega, hend⟩
  | case3 c cs _ _ hc _ => exact ⟨[], c :: cs, rfl, rfl, .inl ⟨c, cs, rfl, hc⟩⟩
  | case7 c cs hc _ => exact ⟨[], c :: cs, rfl, rfl, .inl ⟨c, cs, rfl, hc⟩⟩
  | case4 _ _ _ _ _ hf | case8 _ _ _ hf => exact absurd hb hf
  | case5 c cs _ _ _ hc ih =>
    obtain ⟨g, r, rfl, hlen, hend⟩ := ih
    exact ⟨c :: g, r, rfl, by rw [hlen, byteLength_cons, utf8Size_of_space (by simp [hc])], hend⟩
  | case6 c cs h₁ h₂ hb hc =>
    refine ⟨[], c :: cs, rfl, rfl, .inr ?_⟩
    rw [spaceLength, if_neg hb, if_neg hc]
    · exact h₁
    · exact h₂
  | case9 c cs _ ih =>
    obtain ⟨g, r, rfl, hlen, hend⟩ := ih
    exact ⟨c :: g, r, rfl, by rw [hlen, byteLength_cons], hend⟩
  | case11 c cs _ ih =>
    obtain ⟨g, r, rfl, hlen, hend⟩ := ih
    exact ⟨c :: g, r, rfl, by rw [hlen, byteLength_cons], hend⟩
  | case12 => exact ⟨[], [], rfl, rfl, .inr rfl⟩

inductive OneBreak : List Char → List Char → Prop where
  | lf (r : List Char) : OneBreak ['\n'] r
  | crlf (r : List Char) : OneBreak ['\r', '\n'] r
  | cr {r : List Char} (h : r.head? ≠ some '\n') : OneBreak ['\r'] r

theorem oneBreak_of_break {c : Char} {t : List Char} (hc : isBreak c = true) :
    ∃ w r, c :: t = w ++ r ∧ breakLength (c :: t) = byteLength w ∧ OneBreak w r := by
  rcases Scan.break_cases hc with rfl | rfl
  · exact ⟨['\n'], t, rfl, rfl, .lf t⟩
  · by_cases hn : t.head? = some '\n'
    · obtain ⟨r, rfl⟩ : ∃ r, t = '\n' :: r := by
        cases t with
        | nil => cases hn
        | cons d r => exact ⟨r, by rw [Option.some.inj hn]⟩
      exact ⟨['\r', '\n'], r, rfl, rfl, .crlf r⟩
    · refine ⟨['\r'], t, rfl, ?_, .cr hn⟩
      rw [breakLength, if_pos hc]
      · rfl
      · rintro r - rfl
        exact hn rfl

/-! ## The parts of a gap -/

/-- Between two tokens, the first of which ends at `e`, stand three parts: the space and comments
on the line of the first, a line break, and the space and comments that belong to the second. -/
structure Divided (s : Source) (e t a stop : Nat) (trail terminator lead : List Char) : Prop where
  gap : s.slice? ⟨e, stop⟩ = some (trail ++ terminator ++ lead)
  trail : s.slice? ⟨e, t⟩ = some trail
  terminator : s.slice? ⟨t, a⟩ = some terminator
  lead : s.slice? ⟨a, stop⟩ = some lead

theorem divided_of_rest {trail terminator lead r : List Char}
    (h : s.rest? e = some (trail ++ (terminator ++ (lead ++ r)))) :
    Divided s e (e + byteLength trail) (e + byteLength trail + byteLength terminator)
      (e + byteLength trail + byteLength terminator + byteLength lead) trail terminator lead := by
  have ht := rest?_add h
  have ha := rest?_add ht
  refine ⟨slice?_eq_some (r := r) ?_ ?_, slice?_eq_some h rfl, slice?_eq_some ht rfl,
    slice?_eq_some ha rfl⟩
  · simpa using h
  · simp only [byteLength_append]
    omega

/-- What belongs to the second token begins behind the line break that ends the line of the first. -/
theorem OnCode.leadStart_skipSpace (h : s.OnCode e) (hback : s.skipSpaceBack e = e) :
    s.leadStart (s.skipSpace false e) = s.skipBreak (s.skipSpace true e) := by
  have hle := skipBreak_le h.boundary
  rw [Source.leadStart, h.skipSpaceBack_skipSpace hback]
  omega

theorem OnCode.divided (h : s.OnCode e) (hback : s.skipSpaceBack e = e) :
    ∃ trail terminator lead rest,
      Divided s e (s.skipSpace true e) (s.leadStart (s.skipSpace false e)) (s.skipSpace false e)
        trail terminator lead ∧
      s.rest? (s.leadStart (s.skipSpace false e)) = some rest ∧
      (OneBreak terminator rest ∨
        s.skipSpace true e = s.skipSpace false e ∧ terminator = [] ∧ lead = []) := by
  obtain ⟨cs, hcs⟩ := h.boundary
  obtain ⟨trail, r, rfl, hlen, hend⟩ := spaceLength_toBreak rfl .space cs
  have hline : s.skipSpace true e = e + byteLength trail := by
    simp only [Source.skipSpace, forward, hcs, hlen]
  have hr : s.rest? (e + byteLength trail) = some r := rest?_add hcs
  have hgap := inGap_skipSpace true h.boundary
  rw [h.leadStart_skipSpace hback]
  rcases hend with ⟨c, r', rfl, hc⟩ | hstop
  · obtain ⟨terminator, rest, hsplit, hbreak, hone⟩ := oneBreak_of_break (t := r') hc
    rw [hsplit] at hcs hr
    have hskip : s.skipBreak (s.skipSpace true e) = e + byteLength trail + byteLength terminator := by
      rw [hline]
      simp only [Source.skipBreak, forward, hr, ← hsplit, hbreak]
    have hrest : s.rest? (e + byteLength trail + byteLength terminator) = some rest := rest?_add hr
    have hsame := skipSpace_eq_of_inGap (hgap.trans (inGap_skipBreak hgap.boundary))
    obtain ⟨rest', hlength, hskips⟩ := skips_spaceLength false .space rest
    obtain ⟨lead, rfl⟩ := skips_suffix hskips
    have hstop : s.skipSpace false e
        = e + byteLength trail + byteLength terminator + byteLength lead := by
      rw [← hsame, hskip]
      rw [byteLength_append] at hlength
      simp only [Source.skipSpace, forward, hrest]
      omega
    refine ⟨trail, terminator, lead, _, ?_, hskip ▸ hrest, .inl hone⟩
    rw [hline] at hskip
    rw [hline, hskip, hstop]
    exact divided_of_rest hcs
  · have hstay : s.skipSpace false (s.skipSpace true e) = s.skipSpace true e := by
      rw [hline]
      simp only [Source.skipSpace, forward, hr, hstop, Nat.add_zero]
    have htop : s.skipSpace true e = s.skipSpace false e := by
      rw [← hstay, skipSpace_eq_of_inGap hgap]
    have hle := skipBreak_le h.boundary
    have hge := (inGap_skipBreak hgap.boundary).le
    have hlead : s.skipBreak (s.skipSpace true e) = e + byteLength trail := by omega
    refine ⟨trail, [], [], r, ?_, hlead ▸ hr, .inr ⟨htop, rfl, rfl⟩⟩
    have hall : s.rest? e = some (trail ++ ([] ++ ([] ++ r))) := hcs
    rw [hlead, ← htop, hline]
    exact divided_of_rest hall

/-- Take a place `e` where a token ends and the pass is in code. What follows starts behind the
space and comments there. The part of them on the line of `e` belongs to what ends at `e`; the part
that belongs to what follows begins behind the one line break after it, or is empty if there is none.
The three parts make up the gap, and neither of their borders lies inside a comment. -/
theorem gap_divided (s : Source) (e : Nat) (he : e ∈ codeOffsets .code 0 s.chars)
    (hback : s.skipSpaceBack e = e) :
    (e ≤ s.skipSpace true e ∧ s.skipSpace true e ≤ s.leadStart (s.skipSpace false e) ∧
      s.leadStart (s.skipSpace false e) ≤ s.skipSpace false e) ∧
    (∃ trail terminator lead rest,
      Divided s e (s.skipSpace true e) (s.leadStart (s.skipSpace false e)) (s.skipSpace false e)
        trail terminator lead ∧
      s.rest? (s.leadStart (s.skipSpace false e)) = some rest ∧
      (OneBreak terminator rest ∨ s.skipSpace true e = s.skipSpace false e ∧
        s.leadStart (s.skipSpace false e) = s.skipSpace false e)) ∧
    (∀ c ∈ s.comments, ¬ (c.start < s.skipSpace true e ∧ s.skipSpace true e < c.stop) ∧
      ¬ (c.start < s.leadStart (s.skipSpace false e) ∧
        s.leadStart (s.skipSpace false e) < c.stop)) ∧
    s.skipSpace false (s.leadStart (s.skipSpace false e)) = s.skipSpace false e := by
  have h := onCode_of_mem_codeOffsets he
  have hline := inGap_skipSpace true h.boundary
  have hbreak := inGap_skipBreak hline.boundary
  have hle := skipBreak_le h.boundary
  have hlead := h.leadStart_skipSpace hback
  refine ⟨⟨hline.le, ?_, ?_⟩, ?_, fun c hc => ⟨?_, ?_⟩, ?_⟩
  · rw [hlead]
    exact hbreak.le
  · rwa [hlead]
  · obtain ⟨trail, terminator, lead, rest, hdivided, hrest, hend⟩ := h.divided hback
    refine ⟨trail, terminator, lead, rest, hdivided, hrest, hend.imp id fun hnone => ?_⟩
    have := hbreak.le
    exact ⟨hnone.1, by omega⟩
  · have := (h.inGap hline).apart hc
    omega
  · have := (h.inGap (hline.trans hbreak)).apart hc
    rw [hlead]
    omega
  · rw [hlead]
    exact skipSpace_eq_of_inGap (hline.trans hbreak)

def gapSample : Source := ofString "Gap" "a /* x\n*/ // y\r\n\n  b"

/-- Both comments belong to `a`; what stands from the next line on belongs to `b`. -/
theorem gap_divided_sample :
    ∃ trail terminator lead rest,
      Divided gapSample 1 14 16 19 trail terminator lead ∧ gapSample.rest? 16 = some rest ∧
      (OneBreak terminator rest ∨ 14 = 19 ∧ 16 = 19) := by
  have hline : gapSample.skipSpace true 1 = 14 := by decide
  have hstop : gapSample.skipSpace false 1 = 19 := by decide
  have hlead : gapSample.leadStart 19 = 16 := by decide
  have h := (gap_divided gapSample 1 (by decide) (by decide)).2.1
  rwa [hline, hstop, hlead] at h

end Source

end Transcribe.Text
