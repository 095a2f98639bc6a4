/-
  Transcribe.Proofs.Lead — space and comments in front of a token, seen from where it begins.

  Walking back from a token over the comments of the table and single characters of space, the pass
  is in code at every step, and no place that belongs to another token is left out. So what belongs
  to a token begins at or behind the end of the line on which the token before it ends. The pass
  comes to a place in code only if the comments before it have ended (`CodeAt`), so an entry of the
  table that ends where a step back begins is passed as a whole.
  - `OnCode.step`: the first place behind a place from which a walk over space moves on.
  - `OnCode.leadStart`: the pass is in code where the lead of a token begins.
  - `leadStart_cases`: where it begins.
-/

import Transcribe.Proofs.OnCode

namespace Transcribe.Text

/-! ## One comment or one character of space -/

theorem commentsFrom_line (start o : Nat) (cs : List Char) :
    ∃ w, cs = w ++ afterLine cs ∧ commentsFrom (.line start) o cs
      = ⟨start, o + byteLength w⟩ :: commentsFrom .code (o + byteLength w) (afterLine cs) := by
  induction cs generalizing o with
  | nil => exact ⟨[], rfl, rfl⟩
  | cons c cs ih =>
    by_cases hc : isBreak c = true
    · refine ⟨[], by simp [afterLine, hc], ?_⟩
      rw [afterLine, if_pos hc, Scan.commentsFrom_code_break hc, commentsFrom, if_pos hc,
        byteLength_nil, Nat.add_zero]
    · obtain ⟨w, hw, hpass⟩ := ih (o + c.utf8Size)
      rw [afterLine, if_neg hc]
      refine ⟨c :: w, by rw [List.cons_append, ← hw], ?_⟩
      rw [commentsFrom, if_neg hc, hpass, byteLength_cons, Nat.add_assoc]

theorem commentsFrom_block (start o : Nat) (cs : List Char) :
    ∃ w, cs = w ++ afterBlock cs ∧ commentsFrom (.block start) o cs
      = ⟨start, o + byteLength w⟩ :: commentsFrom .code (o + byteLength w) (afterBlock cs) := by
  fun_induction afterBlock cs generalizing o with
  | case1 cs => exact ⟨['*', '/'], rfl, rfl⟩
  | case2 c cs hc ih =>
    obtain ⟨w, hw, hpass⟩ := ih (o + c.utf8Size)
    refine ⟨c :: w, by rw [List.cons_append, ← hw], ?_⟩
    rw [commentsFrom, hpass, byteLength_cons, Nat.add_assoc]
    exact hc
  | case3 => exact ⟨[], rfl, rfl⟩

/-- One blank, line break or comment is one step of the pass. -/
theorem commentsFrom_skip {cs cs' : List Char} (h : Skip cs cs') (o : Nat) :
    ∃ w xs, cs = w ++ cs' ∧ commentsFrom .code o cs = xs ++ commentsFrom .code (o + byteLength w) cs' ∧
      ((∃ c, w = [c] ∧ isSpace c = true) ∧ xs = [] ∨ xs = [⟨o, o + byteLength w⟩]) := by
  have htwo : ∀ n, o + 2 + n = o + (1 + (1 + n)) := by omega
  cases h with
  | @space c cs h =>
    refine ⟨[c], [], rfl, ?_, .inl ⟨⟨c, rfl, h⟩, rfl⟩⟩
    have hq : isQuote c = false := by
      simp only [isBlank, isBreak, Bool.or_eq_true, beq_iff_eq] at h
      rcases h with ((rfl | rfl) | rfl) | rfl | rfl <;> rfl
    exact Grammar.commentsFrom_code_cons hq fun hc => absurd hc (ne_slash_of_space h)
  | line cs =>
    obtain ⟨w, hw, hpass⟩ := commentsFrom_line o (o + 2) cs
    refine ⟨'/' :: '/' :: w, [⟨o, o + byteLength ('/' :: '/' :: w)⟩], ?_, ?_, .inr rfl⟩
    · rw [List.cons_append, List.cons_append, ← hw]
    · rw [commentsFrom, hpass, htwo]
      rfl
  | block cs =>
    obtain ⟨w, hw, hpass⟩ := commentsFrom_block o (o + 2) cs
    refine ⟨'/' :: '*' :: w, [⟨o, o + byteLength ('/' :: '*' :: w)⟩], ?_, ?_, .inr rfl⟩
    · rw [List.cons_append, List.cons_append, ← hw]
    · rw [commentsFrom, hpass, htwo]
      rfl

theorem exists_skip {cs : List Char} (h : 0 < spaceLength false .space cs) :
    ∃ cs', Skip cs cs' := by
  obtain ⟨cs', hlen, hskips⟩ := skips_spaceLength false .space cs
  rcases Relation.ReflTransGen.cases_head hskips with rfl | ⟨mid, hskip, -⟩
  · omega
  · exact ⟨mid, hskip⟩

/-- The pass is in code at `e`, and the comments before it have ended. -/
def CodeAt (r : Region) (o : Nat) (cs : List Char) (e : Nat) : Prop :=
  ∃ before w t, cs = w ++ t ∧ e = o + byteLength w ∧
    commentsFrom r o cs = before ++ commentsFrom .code e t ∧ ∀ y ∈ before, y.stop ≤ e

theorem CodeAt.append {r m : Region} {o e : Nat} {v cs : List Char} {l : List Span}
    (h : CodeAt m (o + byteLength v) cs e)
    (hpass : commentsFrom r o (v ++ cs) = l ++ commentsFrom m (o + byteLength v) cs)
    (hl : ∀ y ∈ l, y.stop ≤ e) : CodeAt r o (v ++ cs) e := by
  obtain ⟨before, w, t, rfl, he, hcode, hbefore⟩ := h
  refine ⟨l ++ before, v ++ w, t, by simp, by simp [he, Nat.add_assoc], ?_, ?_⟩
  · rw [hpass, hcode, List.append_assoc]
  · intro y hy
    exact (List.mem_append.1 hy).elim (hl y) (hbefore y)

theorem codeAt_self (o : Nat) (cs : List Char) : CodeAt .code o cs o :=
  ⟨[], [], cs, rfl, rfl, rfl, by simp⟩

/-- Where a comment of the table opens the pass is in code. -/
theorem codeAt_start {r : Region} {o : Nat} {cs : List Char} {x : Span}
    (hx : x ∈ commentsFrom r o cs) (hr : r.start? ≠ some x.start) : CodeAt r o cs x.start := by
  have hone : '\\'.utf8Size = 1 := rfl
  have hbehind : ∀ {o : Nat} {cs : List Char}, x ∈ commentsFrom .code o cs → o ≤ x.start :=
    fun h => (le_start_of_mem_commentsFrom h).resolve_left (by simp [Region.start?])
  -- The pass enters a comment from code, unless it has been in it from the start (`hr`).
  fun_induction commentsFrom r o cs with
  | case1 o cs ih =>
    by_cases ho : o = x.start
    · exact ho ▸ codeAt_self o _
    · exact .append (v := ['/', '/']) (l := [])
        (ih hx (by simpa [Region.start?] using ho)) rfl (by simp)
  | case2 o cs ih =>
    by_cases ho : o = x.start
    · exact ho ▸ codeAt_self o _
    · exact .append (v := ['/', '*']) (l := [])
        (ih hx (by simpa [Region.start?] using ho)) rfl (by simp)
  | case3 o c cs h₁ h₂ ih =>
    refine .append (v := [c]) (l := []) (ih hx (by split <;> simp [Region.start?])) ?_ (by simp)
    rw [List.singleton_append, commentsFrom]
    · rfl
    · exact h₁
    · exact h₂
  | case4 start o c cs hc ih =>
    rcases List.mem_cons.1 hx with rfl | hx
    · exact absurd rfl hr
    · have hle := hbehind hx
      refine .append (v := [c]) (l := [⟨start, o⟩]) (ih hx (by simp [Region.start?])) ?_ ?_
      · simp [commentsFrom, hc]
      · simp only [List.mem_singleton, forall_eq]
        omega
  | case5 start o c cs hc ih =>
    exact .append (v := [c]) (l := []) (ih hx hr) (by simp [commentsFrom, hc]) (by simp)
  | case6 start o cs ih =>
    rcases List.mem_cons.1 hx with rfl | hx
    · exact absurd rfl hr
    · have hle := hbehind hx
      exact .append (v := ['*', '/']) (l := [⟨start, o + 2⟩])
        (ih hx (by simp [Region.start?])) rfl (by simpa using hle)
  | case7 start o c cs hc ih =>
    refine .append (v := [c]) (l := []) (ih hx hr) ?_ (by simp)
    rw [List.singleton_append, commentsFrom]
    · rfl
    · exact hc
  | case8 quote o c cs ih =>
    have hlen : o + byteLength ['\\', c] = o + 1 + c.utf8Size := by simp [hone, Nat.add_assoc]
    refine .append (v := ['\\', c]) (l := []) (m := .literal quote) ?_ ?_ (by simp)
    · rw [hlen]
      exact ih hx (by simp [Region.start?])
    · rw [hlen]
      rfl
  | case9 quote o c cs hc ih =>
    refine .append (v := [c]) (l := []) (ih hx (by split <;> simp [Region.start?])) ?_ (by simp)
    rw [List.singleton_append, commentsFrom]
    · rfl
    · exact hc
  | case10 start o | case11 start o =>
    obtain rfl := List.mem_singleton.1 hx
    exact absurd rfl hr
  | case12 | case13 => cases hx

namespace Source

variable {s : Source} {o x y z : Nat}

/-! ## Forward -/

theorem OnCode.skipSpace (h : s.OnCode o) (hs : s.Sealed) (toBreak : Bool) :
    s.OnCode (s.skipSpace toBreak o) := by
  obtain ⟨g, r, -, hskip, hcode, -⟩ := h.gap hs toBreak
  rwa [hskip]

/-- Over characters of space. -/
theorem OnCode.spaces {w r : List Char} (h : s.OnCode o) (hrest : s.rest? o = some (w ++ r))
    (hw : ∀ c ∈ w, isSpace c = true) :
    s.OnCode (o + byteLength w) ∧ s.within o (o + byteLength w) = [] := by
  refine h.passes hrest ?_ (by simp)
  clear hrest h
  induction w generalizing o with
  | nil => rfl
  | cons c w ih =>
    have hc : isSpace c = true := hw c List.mem_cons_self
    have hq : isQuote c = false := by
      simp only [isSpace, isBlank, isBreak, Bool.or_eq_true, beq_iff_eq] at hc
      rcases hc with ((rfl | rfl) | rfl) | rfl | rfl <;> rfl
    rw [List.cons_append, Grammar.commentsFrom_code_cons hq fun h => absurd h (ne_slash_of_space hc),
      ih fun d hd => hw d (List.mem_cons_of_mem _ hd), byteLength_cons, Nat.add_assoc]

theorem isSpace_of_isBreak {c : Char} (h : isBreak c = true) : isSpace c = true := by
  simp [isSpace, h]

theorem exists_breakLength (cs : List Char) :
    ∃ w r, cs = w ++ r ∧ breakLength cs = byteLength w ∧ (∀ c ∈ w, isBreak c = true) ∧
      (w = [] → ∀ c r', r = c :: r' → isBreak c = false) := by
  fun_cases breakLength cs with
  | case1 cs => exact ⟨['\r', '\n'], cs, rfl, rfl, List.all_eq_true.1 rfl, by simp⟩
  | case2 c cs _ hc => exact ⟨[c], cs, rfl, by simp [utf8Size_of_break hc], by simp [hc], by simp⟩
  | case3 c cs _ hc =>
    refine ⟨[], c :: cs, rfl, rfl, by simp, ?_⟩
    rintro - _ _ ⟨⟩
    simpa using hc
  | case4 => exact ⟨[], [], rfl, rfl, by simp, by rintro - _ _ ⟨⟩⟩

theorem OnCode.skipBreak (h : s.OnCode o) :
    s.OnCode (s.skipBreak o) ∧ s.within o (s.skipBreak o) = [] := by
  obtain ⟨rest, hrest⟩ := h.boundary
  obtain ⟨w, r, rfl, hlen, hw, -⟩ := exists_breakLength rest
  simp only [Source.skipBreak, forward, hrest, hlen]
  exact h.spaces hrest fun c hc => isSpace_of_isBreak (hw c hc)

theorem exists_blankLinesLength (bs cs : List Char) (h : ∀ b ∈ bs, isBlank b = true) :
    ∃ w r, bs ++ cs = w ++ r ∧ blankLinesLength bs.length cs = byteLength w ∧
      ∀ c ∈ w, isSpace c = true := by
  have hspace : ∀ b ∈ bs, isSpace b = true := fun b hb => by simp [isSpace, h b hb]
  have hlen := byteLength_blanks h
  generalize hp : bs.length = passed at hlen
  fun_induction blankLinesLength passed cs generalizing bs with
  | case1 passed cs ih =>
    obtain ⟨w, r, hcs, hl, hw⟩ := ih [] (by simp) (by simp) rfl rfl
    have htwo : byteLength ['\r', '\n'] = 2 := rfl
    refine ⟨bs ++ ['\r', '\n'] ++ w, r, ?_, ?_, ?_⟩
    · simpa using hcs
    · rw [byteLength_append, byteLength_append, htwo, hl, hlen]
    · intro c hc
      simp only [List.mem_append] at hc
      rcases hc with (hc | hc) | hc
      · exact hspace c hc
      · have hbreaks : ['\r', '\n'].all isSpace = true := rfl
        exact List.all_eq_true.1 hbreaks c hc
      · exact hw c hc
  | case2 passed c cs _ hb ih =>
    obtain ⟨w, r, hcs, hl, hw⟩ := ih [] (by simp) (by simp) rfl rfl
    refine ⟨bs ++ [c] ++ w, r, ?_, ?_, ?_⟩
    · simpa using hcs
    · rw [byteLength_append, byteLength_append, hl, hlen]
      simp [utf8Size_of_break hb]
    · intro d hd
      simp only [List.mem_append, List.mem_singleton] at hd
      rcases hd with (hd | rfl) | hd
      · exact hspace d hd
      · simp [isSpace, hb]
      · exact hw d hd
  | case3 passed c cs _ _ hk ih =>
    have hc : ∀ b ∈ bs ++ [c], isBlank b = true := by
      simpa [or_imp, forall_and] using And.intro h hk
    have hc' : ∀ b ∈ bs ++ [c], isSpace b = true := fun b hb => by simp [isSpace, hc b hb]
    obtain ⟨w, r, hcs, hl, hw⟩ := ih (bs ++ [c]) hc hc' (by simp [hp])
      (by rw [byteLength_blanks hc]; simp [hp])
    exact ⟨w, r, by simpa using hcs, hl, hw⟩
  | case4 | case5 => exact ⟨[], _, rfl, rfl, by simp⟩

theorem OnCode.skipBlankLines (h : s.OnCode o) :
    s.OnCode (s.skipBlankLines o) ∧ s.within o (s.skipBlankLines o) = [] := by
  obtain ⟨rest, hrest⟩ := h.boundary
  obtain ⟨w, r, hcs, hlen, hw⟩ := exists_blankLinesLength [] rest (by simp)
  obtain rfl : rest = w ++ r := hcs
  simp only [Source.skipBlankLines, forward, hrest]
  rw [show blankLinesLength 0 (w ++ r) = byteLength w from hlen]
  exact h.spaces hrest hw

theorem stepBack_lt_of_comment {c : Span} (h : c ∈ s.comments) : s.stepBack c.stop < c.stop := by
  cases hfind : s.comments.find? fun x => x.stop == c.stop with
  | none => exact absurd (List.find?_eq_none.1 hfind c h) (by simp)
  | some x =>
    have hlt := start_lt_stop (List.mem_of_find?_eq_some hfind)
    have hstop : x.stop = c.stop := by simpa using List.find?_some hfind
    simp only [stepBack, commentBefore?, hfind, Option.map_some]
    omega

theorem stepBack_lt_of_space {c : Char} (h : charBefore? o s.chars = some c)
    (hc : isSpace c = true) : s.stepBack o < o := by
  by_cases hnone : ∀ x ∈ s.comments, x.stop ≠ o
  · obtain ⟨a, r, -, rfl⟩ := charBefore?_eq_some h
    have := c.utf8Size_pos
    rw [stepBack_of_char hnone h, if_pos hc]
    omega
  · obtain ⟨x, hx, rfl⟩ : ∃ x ∈ s.comments, x.stop = o := by simpa using hnone
    exact stepBack_lt_of_comment hx

/-- From a place where a walk over space moves on, the next place it comes to. -/
theorem OnCode.step (h : s.OnCode x) (hmove : x < s.skipSpace false x) :
    ∃ y, x < y ∧ s.OnCode y ∧ s.skipSpace false y = s.skipSpace false x ∧ s.stepBack y < y ∧
      ∀ z, s.OnCode z → x < z → y ≤ z := by
  obtain ⟨cs, hcs⟩ := h.boundary
  have hlen : 0 < spaceLength false .space cs := by
    simp only [Source.skipSpace, forward, hcs] at hmove
    omega
  obtain ⟨cs', hskip⟩ := exists_skip hlen
  obtain ⟨w, xs, rfl, hpass, hone⟩ := commentsFrom_skip hskip x
  have hne : w ≠ [] := by
    obtain ⟨a, ha, heq⟩ := skip_suffix hskip
    rintro rfl
    exact ha (by simpa using heq)
  have hpos := Grammar.byteLength_pos (by simpa using hne : w.isEmpty = false)
  have hxs : ∀ x' ∈ xs, x'.stop ≤ x + byteLength w := by
    rcases hone with ⟨-, rfl⟩ | rfl <;> simp
  obtain ⟨hcode, hwithin⟩ := h.passes hcs hpass hxs
  have hgap : s.InGap x (x + byteLength w) :=
    inGap_add hcs (.single hskip) (byteLength_append _ _)
  have hmem : xs = [⟨x, x + byteLength w⟩] → (⟨x, x + byteLength w⟩ : Span) ∈ s.comments := by
    intro hxs
    exact List.mem_of_mem_filter (hwithin ▸ hxs ▸ List.mem_singleton_self _ :
      (⟨x, x + byteLength w⟩ : Span) ∈ s.within x (x + byteLength w))
  refine ⟨x + byteLength w, by omega, hcode, skipSpace_eq_of_inGap hgap, ?_, ?_⟩
  · rcases hone with ⟨⟨c, rfl, hc⟩, -⟩ | rfl
    · obtain ⟨a, ha, rfl⟩ := rest?_eq_some_iff.1 hcs
      have hbefore := charBefore?_append a c cs'
      rw [← List.singleton_append, ← ha] at hbefore
      exact stepBack_lt_of_space (by simpa using hbefore) hc
    · exact stepBack_lt_of_comment (hmem rfl)
  · intro z hz hlt
    rcases hone with ⟨⟨c, rfl, hc⟩, -⟩ | rfl
    · rw [byteLength_cons, utf8Size_of_space hc]
      simp only [byteLength_nil]
      omega
    · rcases hz.apart (hmem rfl) with h | h
      · exact h
      · simp only at h
        omega

/-- A walk over space stops at a token. -/
theorem OnCode.skipSpace_le (hx : s.OnCode x) (hz : s.OnCode z) (hxz : x ≤ z)
    (hstop : s.skipSpace false z = z ∨ ¬ s.stepBack z < z ∧ x < z) : s.skipSpace false x ≤ z := by
  induction hn : z - x using Nat.strongRecOn generalizing x with
  | ind n ih =>
    by_cases hmove : x < s.skipSpace false x
    · by_cases heq : x = z
      · subst heq
        rcases hstop with hstop | hstop
        · exact Nat.le_of_eq hstop
        · exact absurd hstop.2 (Nat.lt_irrefl _)
      · obtain ⟨y, hxy, hy, hsame, hback, hnext⟩ := hx.step hmove
        have hyz := hnext z hz (by omega)
        rw [← hsame]
        refine ih (z - y) (by omega) hy hyz ?_ rfl
        refine hstop.imp id fun h => ⟨h.1, Nat.lt_of_le_of_ne hyz ?_⟩
        rintro rfl
        exact h.1 hback
    · omega

/-! ## Backward -/

theorem OnCode.stepBack (h : s.OnCode o) : s.OnCode (s.stepBack o) := by
  cases hfind : s.comments.find? fun x => x.stop == o with
  | some c =>
    have hc := List.mem_of_find?_eq_some hfind
    simp only [Source.stepBack, commentBefore?, hfind, Option.map_some]
    rw [s.comments_eq] at hc
    obtain ⟨before, w, t, hcs, hstart, hpass, hbefore⟩ :=
      codeAt_start hc (by simp [Region.start?])
    refine ⟨before, t, rest?_eq_some_iff.2 ⟨w, hcs, by simpa using hstart⟩, ?_, hbefore⟩
    rw [s.comments_eq]
    exact hpass
  | none =>
    have hnone : ∀ x ∈ s.comments, x.stop ≠ o := by
      intro x hx hstop
      exact absurd (List.find?_eq_none.1 hfind x hx) (by simp [hstop])
    cases hchar : charBefore? o s.chars with
    | none =>
      simp only [Source.stepBack, commentBefore?, hfind, hchar, Option.map_none]
      exact h
    | some c =>
      rw [stepBack_of_char hnone hchar]
      split
      · rename_i hc
        obtain ⟨a, r, hcs, rfl⟩ := charBefore?_eq_some hchar
        have hsize := utf8Size_of_space hc
        obtain ⟨before, rest, hrest, htable, hbefore⟩ := h
        have hself : s.rest? (byteLength a) = some (c :: r) := rest?_eq_some_iff.2 ⟨a, hcs, rfl⟩
        obtain rfl : rest = r := by
          rw [rest?_cons hself] at hrest
          exact (Option.some.inj hrest).symm
        have hq : isQuote c = false := by
          simp only [isSpace, isBlank, isBreak, Bool.or_eq_true, beq_iff_eq] at hc
          rcases hc with ((rfl | rfl) | rfl) | rfl | rfl <;> rfl
        rw [hsize, Nat.add_sub_cancel]
        refine ⟨before, c :: rest, hself, ?_, fun x hx => ?_⟩
        · rw [Grammar.commentsFrom_code_cons hq fun h => absurd h (ne_slash_of_space hc), htable]
        · have hle := hbefore x hx
          have hne := hnone x (by rw [htable]; exact List.mem_append_left _ hx)
          omega
      · exact h

theorem OnCode.stepsBack {n : Nat} (h : s.OnCode o) : s.OnCode (s.stepsBack n o) := by
  induction n generalizing o with
  | zero => exact h
  | succ n ih =>
    rw [Source.stepsBack]
    split
    · exact ih h.stepBack
    · exact h

theorem OnCode.skipSpaceBack (h : s.OnCode o) : s.OnCode (s.skipSpaceBack o) := by
  rw [Source.skipSpaceBack, Nat.min_eq_left (le_size h.boundary)]
  exact h.stepsBack

theorem stepsBack_stays {n : Nat} (h : o ≤ n) :
    ¬ s.stepBack (s.stepsBack n o) < s.stepsBack n o := by
  induction n generalizing o with
  | zero =>
    obtain rfl : o = 0 := by omega
    simp [Source.stepsBack]
  | succ n ih =>
    rw [Source.stepsBack]
    split
    · exact ih (by omega)
    · rename_i hstay
      exact hstay

theorem skipSpaceBack_stays (h : s.Boundary o) :
    ¬ s.stepBack (s.skipSpaceBack o) < s.skipSpaceBack o := by
  rw [Source.skipSpaceBack, Nat.min_eq_left (le_size h)]
  exact stepsBack_stays (Nat.le_refl o)

/-- Walking back does not pass a place where the pass is in code without coming to it. -/
theorem OnCode.le_stepBack (hx : s.OnCode x) (h : x < o) : x ≤ s.stepBack o := by
  cases hfind : s.comments.find? fun y => y.stop == o with
  | some c =>
    obtain rfl : c.stop = o := by simpa using List.find?_some hfind
    simp only [Source.stepBack, commentBefore?, hfind, Option.map_some]
    exact (hx.apart (List.mem_of_find?_eq_some hfind)).resolve_left (by omega)
  | none =>
    simp only [Source.stepBack, commentBefore?, hfind, Option.map_none]
    split
    · split <;> omega
    · omega

theorem OnCode.le_stepsBack {n : Nat} (hx : s.OnCode x) (hstay : ¬ s.stepBack x < x) (h : x ≤ o) :
    x ≤ s.stepsBack n o := by
  induction n generalizing o with
  | zero => exact h
  | succ n ih =>
    rw [Source.stepsBack]
    split
    · rename_i hlt
      refine ih (hx.le_stepBack (Nat.lt_of_le_of_ne h ?_))
      rintro rfl
      exact hstay hlt
    · exact h

/-- Walking back stops where a token ends. -/
theorem OnCode.le_skipSpaceBack (hx : s.OnCode x) (hback : s.skipSpaceBack x = x) (hy : s.OnCode y)
    (h : x ≤ y) : x ≤ s.skipSpaceBack y := by
  have hstay := skipSpaceBack_stays hx.boundary
  rw [hback] at hstay
  rw [Source.skipSpaceBack, Nat.min_eq_left (le_size hy.boundary)]
  exact hx.le_stepsBack hstay h

/-! ## Leads -/

theorem OnCode.leadStart (h : s.OnCode o) (hs : s.Sealed) : s.OnCode (s.leadStart o) := by
  unfold Source.leadStart
  rcases Nat.le_total o (s.skipBreak (s.skipSpace true (s.skipSpaceBack o))) with hle | hle
  · rwa [Nat.min_eq_left hle]
  · rw [Nat.min_eq_right hle]
    exact ((h.skipSpaceBack.skipSpace hs true).skipBreak).1

theorem skipBreak_le (h : s.Boundary o) :
    s.skipBreak (s.skipSpace true o) ≤ s.skipSpace false o := by
  have hline := inGap_skipSpace true h
  have hgap := hline.trans (inGap_skipBreak hline.boundary)
  rw [← skipSpace_eq_of_inGap hgap]
  exact le_skipSpace false _

/-- What belongs to a token at `y` begins behind the line on which a token before it ends at `x`, or
behind all the space there. -/
theorem leadStart_cases (hx : s.OnCode x) (hback : s.skipSpaceBack x = x) (hy : s.OnCode y)
    (hstart : s.skipSpace false y = y) (h : x ≤ y) :
    s.leadStart y = s.skipBreak (s.skipSpace true x) ∨ s.skipSpace false x ≤ s.leadStart y := by
  have hle := hx.le_skipSpaceBack hback hy h
  have hself : s.skipSpace false x ≤ y := hx.skipSpace_le hy h (.inl hstart)
  by_cases heq : s.skipSpaceBack y = x
  · left
    have := skipBreak_le hx.boundary
    rw [Source.leadStart, heq]
    omega
  · right
    have hz := hy.skipSpaceBack
    have hbefore : s.skipSpace false x ≤ s.skipSpaceBack y :=
      hx.skipSpace_le hz hle (.inr ⟨skipSpaceBack_stays hy.boundary, by omega⟩)
    have hline := le_skipSpace (s := s) true (s.skipSpaceBack y)
    have hbreak := (inGap_skipBreak (inGap_skipSpace true hz.boundary).boundary).le
    rw [Source.leadStart]
    omega

end Source

end Transcribe.Text
