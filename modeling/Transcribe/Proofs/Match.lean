/-
  Transcribe.Proofs.Match — what a match consumes.

  A run bounded by fuel that matches is retold as a derivation without fuel or attempts, one
  case for each way an expression can match; a gap is retold as blanks and whole comments.
  Facts about matches are then inductions over these cases.

  `Takes g m k c ts d` is a match from cursor `c` to cursor `d` that gives the trees `ts`, inside of
  a token or not; `k` is an expression, or its further repetitions behind the first (`Trial`). Where
  an expression must not match, for a later choice or a lookahead, it is only said that a run of it
  failed (`Refuses`). The lexemes of a derivation are what the text is made of, blanks apart: words,
  tokens and comments.
  - `gapTo_gap`, `takes_of_run`: every gap and every match is such a derivation.
  - `GapTo.inStep`: the table of comments agrees with a gap.
  - `Takes.inOrder`: words, tokens and comments of a match lie one behind the other.
-/

import Transcribe.Grammar.Match
import Transcribe.Text.Comment

namespace Transcribe.Grammar

open Text (Span Region byteLength isBreak isQuote commentsFrom)

/-! ## Cursors -/

structure Cursor.Reaches (c : Cursor) (w : List Char) (d : Cursor) : Prop where
  rest_eq : c.rest = w ++ d.rest
  offset_eq : d.offset = c.offset + byteLength w

namespace Cursor.Reaches

theorem refl (c : Cursor) : c.Reaches [] c := ⟨rfl, rfl⟩

theorem trans {c d e : Cursor} {v w : List Char} (h : c.Reaches v d) (h' : d.Reaches w e) :
    c.Reaches (v ++ w) e := by
  refine ⟨?_, ?_⟩
  · rw [h.rest_eq, h'.rest_eq, List.append_assoc]
  · rw [h'.offset_eq, h.offset_eq, Text.byteLength_append, Nat.add_assoc]

end Cursor.Reaches

/-! ## Spans in order -/

def InOrder : Nat → List Span → Nat → Prop
  | lo, [], hi => lo ≤ hi
  | lo, s :: ss, hi => lo ≤ s.start ∧ s.start ≤ s.stop ∧ InOrder s.stop ss hi

namespace InOrder

theorem le {lo hi : Nat} {ss : List Span} (h : InOrder lo ss hi) : lo ≤ hi := by
  induction ss generalizing lo with
  | nil => exact h
  | cons s ss ih =>
    obtain ⟨h₁, h₂, h₃⟩ := h
    exact Nat.le_trans h₁ (Nat.le_trans h₂ (ih h₃))

theorem of_le {lo lo' hi : Nat} {ss : List Span} (hle : lo ≤ lo') (h : InOrder lo' ss hi) :
    InOrder lo ss hi := by
  cases ss with
  | nil => exact Nat.le_trans hle h
  | cons s ss => exact ⟨Nat.le_trans hle h.1, h.2⟩

theorem append {lo mid hi : Nat} {ss ts : List Span} (h : InOrder lo ss mid)
    (h' : InOrder mid ts hi) : InOrder lo (ss ++ ts) hi := by
  induction ss generalizing lo with
  | nil => exact of_le h h'
  | cons s ss ih => exact ⟨h.1, h.2.1, ih h.2.2⟩

theorem pairwise {lo hi : Nat} {ss : List Span} (h : InOrder lo ss hi) :
    ss.Pairwise fun a b => a.stop ≤ b.start := by
  induction ss generalizing lo with
  | nil => exact .nil
  | cons s ss ih =>
    refine List.pairwise_cons.2 ⟨fun b hb => ?_, ih h.2.2⟩
    exact start_le h.2.2 hb
where
  start_le {lo hi : Nat} {ss : List Span} (h : InOrder lo ss hi) {b : Span} (hb : b ∈ ss) :
      lo ≤ b.start := by
    induction ss generalizing lo with
    | nil => cases hb
    | cons s ss ih =>
      obtain ⟨h₁, h₂, h₃⟩ := h
      rcases List.mem_cons.1 hb with rfl | hb
      · exact h₁
      · have := ih h₃ hb
        omega

end InOrder

/-! ## Gaps -/

/-- A gap from `c` to `d` with these comments: blanks and whole comments, up to a place where
no further gap begins. -/
inductive GapTo : Cursor → List Span → Cursor → Prop where
  | done {c : Cursor} (h : gap c = ([], c)) : GapTo c [] c
  | blank {o : Nat} {ch : Char} {cs : List Char} {ss : List Span} {d : Cursor}
      (h : isGapChar ch = true) (rest : GapTo ⟨o + 1, cs⟩ ss d) : GapTo ⟨o, ch :: cs⟩ ss d
  | comment {o : Nat} {w cs : List Char} {ss : List Span} {d : Cursor}
      (h : commentsFrom .code o (w ++ cs)
        = ⟨o, o + byteLength w⟩ :: commentsFrom .code (o + byteLength w) cs)
      (rest : GapTo ⟨o + byteLength w, cs⟩ ss d) :
      GapTo ⟨o, w ++ cs⟩ (⟨o, o + byteLength w⟩ :: ss) d

def Within.Entered (c : Cursor) (o : Nat) (cs : List Char) : Within → Prop
  | .space => c = ⟨o, cs⟩
  | .line start => ∃ w, c = ⟨start, w ++ cs⟩ ∧ o = start + byteLength w ∧
      commentsFrom .code start (w ++ cs) = commentsFrom (.line start) o cs
  | .block start opening => opening = c ∧ gap c = gapFrom (.block start c) o cs ∧
      ∃ w, c = ⟨start, w ++ cs⟩ ∧ o = start + byteLength w ∧
        commentsFrom .code start (w ++ cs) = commentsFrom (.block start) o cs

theorem utf8Size_of_isGapChar {c : Char} (h : isGapChar c = true) : c.utf8Size = 1 := by
  simp only [isGapChar, isBreak, Bool.or_eq_true, beq_iff_eq] at h
  rcases h with (rfl | rfl) | rfl | rfl <;> rfl

theorem isGapChar_of_isBreak {c : Char} (h : isBreak c = true) : isGapChar c = true := by
  simp [isGapChar, h]

/-- The table passes over a character that opens nothing. -/
theorem commentsFrom_code_cons {o : Nat} {c : Char} {cs : List Char} (hq : isQuote c = false)
    (hs : c = '/' → cs.head? ≠ some '/' ∧ cs.head? ≠ some '*') :
    commentsFrom .code o (c :: cs) = commentsFrom .code (o + c.utf8Size) cs := by
  rw [commentsFrom, hq]
  · simp
  · rintro cs' rfl rfl
    exact (hs rfl).1 rfl
  · rintro cs' rfl rfl
    exact (hs rfl).2 rfl

theorem commentsFrom_code_gapChar {o : Nat} {c : Char} {cs : List Char} (h : isGapChar c = true) :
    commentsFrom .code o (c :: cs) = commentsFrom .code (o + 1) cs := by
  rw [commentsFrom_code_cons, utf8Size_of_isGapChar h]
  · simp only [isGapChar, isBreak, Bool.or_eq_true, beq_iff_eq] at h
    rcases h with (rfl | rfl) | rfl | rfl <;> rfl
  · rintro rfl
    cases h

/-- A line comment passed on the way is never lost. -/
theorem gapFrom_line_ne_nil (start o : Nat) (cs : List Char) :
    (gapFrom (.line start) o cs).1 ≠ [] := by
  induction cs generalizing o with
  | nil => simp [gapFrom]
  | cons c cs ih =>
    rw [gapFrom]
    split
    · simp [keepComment]
    · exact ih _

theorem gapTo_gapFrom {c : Cursor} {k : Within} {o : Nat} {cs : List Char}
    (h : k.Entered c o cs) : GapTo c (gapFrom k o cs).1 (gapFrom k o cs).2 := by
  fun_induction gapFrom k o cs generalizing c with
  | case1 o cs ih =>
    obtain rfl := h
    exact ih ⟨['/', '/'], rfl, rfl, rfl⟩
  | case2 o cs ih =>
    obtain rfl := h
    exact ih ⟨rfl, rfl, ['/', '*'], rfl, rfl, rfl⟩
  | case3 o ch cs _ _ hch ih =>
    obtain rfl := h
    exact .blank hch (ih rfl)
  | case4 o ch cs h₁ h₂ hch =>
    obtain rfl := h
    refine .done ?_
    rw [gap, gapFrom, if_neg hch]
    · exact h₁
    · exact h₂
  | case5 o =>
    obtain rfl := h
    exact .done rfl
  | case6 start o ch cs hch ih =>
    obtain ⟨w, rfl, rfl, hw⟩ := h
    have hgap := isGapChar_of_isBreak hch
    refine .comment ?_ (.blank hgap (ih rfl))
    rw [hw, commentsFrom_code_gapChar hgap, commentsFrom, if_pos hch, utf8Size_of_isGapChar hgap]
  | case7 start o ch cs hch ih =>
    obtain ⟨w, rfl, rfl, hw⟩ := h
    refine ih ⟨w ++ [ch], by simp, by simp [Nat.add_assoc], ?_⟩
    rw [List.append_assoc, List.singleton_append, hw, commentsFrom, if_neg hch]
  | case8 start o =>
    obtain ⟨w, rfl, rfl, hw⟩ := h
    exact .comment hw (.done rfl)
  | case9 start opening o cs ih =>
    obtain ⟨rfl, -, w, rfl, rfl, hw⟩ := h
    have hrest := ih (c := ⟨start + byteLength w + 2, cs⟩) rfl
    have hend : byteLength (w ++ ['*', '/']) = byteLength w + 2 := by simp; rfl
    have hcut : w ++ '*' :: '/' :: cs = (w ++ ['*', '/']) ++ cs := by simp
    rw [hcut] at hw ⊢
    have := GapTo.comment (w := w ++ ['*', '/']) (by rw [hw, commentsFrom, hend, Nat.add_assoc])
      (by rwa [hend, ← Nat.add_assoc])
    rwa [hend, ← Nat.add_assoc] at this
  | case10 start opening o ch cs hne ih =>
    obtain ⟨rfl, hgap, w, rfl, rfl, hw⟩ := h
    refine ih ⟨rfl, ?_, w ++ [ch], by simp, by simp [Nat.add_assoc], ?_⟩
    · rw [hgap, gapFrom]
      exact hne
    · rw [List.append_assoc, List.singleton_append, hw, commentsFrom]
      exact hne
  | case11 start opening o =>
    obtain ⟨rfl, hgap, -⟩ := h
    exact .done (by rw [hgap, gapFrom])

/-- Every gap is blanks and whole comments. -/
theorem gapTo_gap (c : Cursor) : GapTo c (gap c).1 (gap c).2 := gapTo_gapFrom rfl

namespace GapTo

variable {c d : Cursor} {ss : List Span}

/-- No gap begins where a gap ended. -/
theorem gap_eq (h : GapTo c ss d) : gap d = ([], d) := by
  induction h with
  | done h => exact h
  | blank _ _ ih => exact ih
  | comment _ _ ih => exact ih

/-- The table of comments holds the comments of the gap and goes on behind it. -/
theorem inStep (h : GapTo c ss d) :
    commentsFrom .code c.offset c.rest = ss ++ commentsFrom .code d.offset d.rest := by
  induction h with
  | done => rfl
  | blank h _ ih => rw [commentsFrom_code_gapChar h, ih]
  | comment h _ ih => rw [h, ih, List.cons_append]

theorem reaches (h : GapTo c ss d) : ∃ w, c.Reaches w d := by
  induction h with
  | done => exact ⟨[], .refl _⟩
  | @blank o ch cs ss d h _ ih =>
    obtain ⟨w, hw⟩ := ih
    exact ⟨[ch] ++ w, .trans ⟨rfl, by simp [utf8Size_of_isGapChar h]⟩ hw⟩
  | @comment o v cs ss d _ _ ih =>
    obtain ⟨w, hw⟩ := ih
    exact ⟨v ++ w, .trans ⟨rfl, rfl⟩ hw⟩

theorem inOrder (h : GapTo c ss d) : InOrder c.offset ss d.offset := by
  induction h with
  | done => exact Nat.le_refl _
  | blank _ _ ih => exact ih.of_le (Nat.le_add_right _ 1)
  | comment _ _ ih => exact ⟨Nat.le_refl _, Nat.le_add_right _ _, ih⟩

end GapTo

/-! ## Matches -/

variable {ρ : Type} {g : Rules ρ}

def Rules.inner (g : Rules ρ) (r : ρ) (m : Mode) : Mode :=
  if g.kind r = .token then { m with token := true } else m

def Refuses (g : Rules ρ) (m : Mode) (e : Peg ρ) (c : Cursor) : Prop :=
  ∃ n a a', run g n e m c a = some (.failed a')

/-- What is matched: an expression once, or its repetitions behind the first. -/
inductive Trial (ρ : Type) where
  | once (e : Peg ρ)
  | further (e : Peg ρ)

inductive Takes (g : Rules ρ) : Mode → Trial ρ → Cursor → List (Derivation ρ) → Cursor → Prop where
  | word {m w c rest} (h : afterWord? w c.rest = some rest) :
      Takes g m (.once (.word w)) c (m.leaf ⟨c.offset, c.offset + byteLength w⟩)
        ⟨c.offset + byteLength w, rest⟩
  | words {m w ws c rest} (hw : w ∈ ws) (h : afterWord? w c.rest = some rest) :
      Takes g m (.once (.words ws)) c (m.leaf ⟨c.offset, c.offset + byteLength w⟩)
        ⟨c.offset + byteLength w, rest⟩
  | one {m p o ch rest} (h : p ch = true) :
      Takes g m (.once (.one p)) ⟨o, ch :: rest⟩ (m.leaf ⟨o, o + ch.utf8Size⟩)
        ⟨o + ch.utf8Size, rest⟩
  | startOfText {m c} : Takes g m (.once .startOfText) c [] c
  | endOfText {m c} (h : c.rest = []) : Takes g m (.once .endOfText) c [] c
  | rule {m r c parts d} (h : Takes g (g.inner r m) (.once (g.body r)) c parts d) :
      Takes g m (.once (.rule r)) c
        (if m.token then [] else [.node r ⟨c.offset, d.offset⟩ parts]) d
  | seq {m x y c before mid behind d} (hx : Takes g m (.once x) c before mid)
      (hy : Takes g m (.once y) (m.gap mid).2 behind d) :
      Takes g m (.once (.seq x y)) c (before ++ m.gapLeaves mid ++ behind) d
  | left {m x y c ts d} (h : Takes g m (.once x) c ts d) : Takes g m (.once (.alt x y)) c ts d
  | right {m x y c ts d} (hx : Refuses g m x c) (h : Takes g m (.once y) c ts d) :
      Takes g m (.once (.alt x y)) c ts d
  | absent {m x c} : Takes g m (.once (.opt x)) c [] c
  | present {m x c ts d} (h : Takes g m (.once x) c ts d) : Takes g m (.once (.opt x)) c ts d
  | never {m x c} : Takes g m (.once (.many x)) c [] c
  | many {m x c first mid others d} (hx : Takes g m (.once x) c first mid)
      (h : Takes g m (.further x) mid others d) :
      Takes g m (.once (.many x)) c (first ++ others) d
  | ahead {m x c} : Takes g m (.once (.ahead x)) c [] c
  | notAhead {m x c} (h : Refuses g { m with look := m.look.notAhead } x c) :
      Takes g m (.once (.notAhead x)) c [] c
  | done {m x c} : Takes g m (.further x) c [] c
  | again {m x c trees mid others d} (hx : Takes g m (.once x) (m.gap c).2 trees mid)
      (h : Takes g m (.further x) mid others d) :
      Takes g m (.further x) c (m.gapLeaves c ++ trees ++ others) d

theorem takes_of_takeWord {m : Mode} {w : List Char} {c d : Cursor} {a a' : Attempts ρ}
    {ts : List (Derivation ρ)} (h : takeWord m w c a = .matched ts d a') :
    ∃ rest, afterWord? w c.rest = some rest ∧ d = ⟨c.offset + byteLength w, rest⟩ ∧
      ts = m.leaf ⟨c.offset, c.offset + byteLength w⟩ := by
  unfold takeWord at h
  split at h
  · rename_i rest hrest
    cases h
    exact ⟨rest, hrest, rfl, rfl⟩
  · cases h

def RunTakes (g : Rules ρ) (n : Nat) : Prop :=
  ∀ {e m c a ts d a'}, run g n e m c a = some (.matched ts d a') → Takes g m (.once e) c ts d

def MoreTakes (g : Rules ρ) (n : Nat) : Prop :=
  ∀ {x m c a ts d a'}, more g n x m c a = some (ts, d, a') → Takes g m (.further x) c ts d

theorem runTakes_succ {n : Nat} (ihRun : RunTakes g n) (ihMore : MoreTakes g n) :
    RunTakes g (n + 1) := by
  intro e m c a ts d a' h
  cases e with
  | word w =>
    simp only [run, Option.some.injEq] at h
    obtain ⟨rest, hrest, rfl, rfl⟩ := takes_of_takeWord h
    exact .word hrest
  | words ws =>
    simp only [run] at h
    split at h
    · rename_i w hw
      obtain ⟨rest, hrest, rfl, rfl⟩ := takes_of_takeWord (Option.some.inj h)
      exact .words (List.mem_of_find?_eq_some hw) hrest
    · cases h
  | one p =>
    obtain ⟨o, cs⟩ := c
    cases cs with
    | nil => simp [run] at h
    | cons ch cs =>
      simp only [run] at h
      split at h
      · rename_i hp
        cases h
        exact .one hp
      · cases h
  | startOfText =>
    simp only [run, Option.some.injEq] at h
    split at h
    · cases h; exact .startOfText
    · cases h
  | endOfText =>
    simp only [run, Option.some.injEq] at h
    split at h
    · rename_i hc
      cases h
      exact .endOfText (List.isEmpty_iff.1 hc)
    · cases h
  | rule r =>
    simp only [run] at h
    split at h
    · cases h
    · cases h
    · rename_i parts next a'' hrun
      cases h
      exact .rule (ihRun hrun)
  | seq x y =>
    simp only [run] at h
    split at h
    · cases h
    · cases h
    · rename_i before mid _ hx
      split at h
      · cases h
      · cases h
      · rename_i behind next _ hy
        cases h
        exact .seq (ihRun hx) (ihRun hy)
  | alt x y =>
    simp only [run] at h
    split at h
    · cases h
    · rename_i hx
      exact .right ⟨n, _, _, hx⟩ (ihRun h)
    · rename_i hx
      cases h
      exact .left (ihRun hx)
  | opt x =>
    simp only [run] at h
    split at h
    · cases h
    · cases h; exact .absent
    · rename_i hx
      cases h
      exact .present (ihRun hx)
  | many x =>
    simp only [run] at h
    split at h
    · cases h
    · cases h; exact .never
    · rename_i hx
      split at h
      · cases h
      · rename_i hmore
        cases h
        exact .many (ihRun hx) (ihMore hmore)
  | ahead x =>
    simp only [run] at h
    split at h
    · cases h
    · cases h
    · cases h; exact .ahead
  | notAhead x =>
    simp only [run] at h
    split at h
    · cases h
    · rename_i hx
      cases h
      exact .notAhead ⟨n, _, _, hx⟩
    · cases h

theorem moreTakes_succ {n : Nat} (ihRun : RunTakes g n) (ihMore : MoreTakes g n) :
    MoreTakes g (n + 1) := by
  intro x m c a ts d a' h
  simp only [more] at h
  split at h
  · cases h
  · cases h; exact .done
  · rename_i hx
    split at h
    · cases h
    · rename_i hmore
      cases h
      exact .again (ihRun hx) (ihMore hmore)

theorem runTakes_and_moreTakes (g : Rules ρ) (n : Nat) : RunTakes g n ∧ MoreTakes g n := by
  induction n with
  | zero =>
    refine ⟨fun h => ?_, fun h => ?_⟩
    · cases h
    · cases h
  | succ n ih => exact ⟨runTakes_succ ih.1 ih.2, moreTakes_succ ih.1 ih.2⟩

/-- Every match is a derivation of `Takes`. -/
theorem takes_of_run {n : Nat} {e : Peg ρ} {m : Mode} {c d : Cursor} {a a' : Attempts ρ}
    {ts : List (Derivation ρ)} (h : run g n e m c a = some (.matched ts d a')) :
    Takes g m (.once e) c ts d :=
  (runTakes_and_moreTakes g n).1 h

namespace Mode

variable {m : Mode} {c : Cursor}

@[simp] theorem gap_of_token (hm : m.token = true) : m.gap c = ([], c) := by simp [Mode.gap, hm]

@[simp] theorem gap_of_tree (hm : m.token = false) : m.gap c = Grammar.gap c := by
  simp [Mode.gap, hm]

theorem gap_reaches (m : Mode) (c : Cursor) : ∃ w, c.Reaches w (m.gap c).2 := by
  cases hm : m.token with
  | false => rw [gap_of_tree hm]; exact (gapTo_gap c).reaches
  | true => rw [gap_of_token hm]; exact ⟨[], .refl c⟩

theorem gap_inOrder (m : Mode) (c : Cursor) : InOrder c.offset (m.gap c).1 (m.gap c).2.offset := by
  cases hm : m.token with
  | false => rw [gap_of_tree hm]; exact (gapTo_gap c).inOrder
  | true => rw [gap_of_token hm]; exact Nat.le_refl _

end Mode

theorem eq_append_of_afterWord? {w cs rest : List Char} (h : afterWord? w cs = some rest) :
    cs = w ++ rest := by
  fun_induction afterWord? w cs with
  | case1 cs => exact Option.some.inj h
  | case2 => cases h
  | case3 w ws c cs hwc ih => rw [beq_iff_eq.1 hwc, ih h, List.cons_append]
  | case4 => cases h

theorem reaches_of_afterWord? {w rest : List Char} {c : Cursor}
    (h : afterWord? w c.rest = some rest) : c.Reaches w ⟨c.offset + byteLength w, rest⟩ :=
  ⟨eq_append_of_afterWord? h, rfl⟩

/-- A match moves on over a part of the text. -/
theorem Takes.reaches {m : Mode} {k : Trial ρ} {c d : Cursor} {ts : List (Derivation ρ)}
    (h : Takes g m k c ts d) : ∃ w, c.Reaches w d := by
  induction h with
  | word h => exact ⟨_, reaches_of_afterWord? h⟩
  | words _ h => exact ⟨_, reaches_of_afterWord? h⟩
  | @one _ _ _ ch => exact ⟨[ch], rfl, rfl⟩
  | startOfText | endOfText | absent | never | ahead | notAhead | done => exact ⟨[], .refl _⟩
  | rule _ ih | left _ ih | right _ _ ih | present _ ih => exact ih
  | @seq m _ _ _ _ mid _ _ _ _ ihx ihy =>
    obtain ⟨u, hu⟩ := ihx
    obtain ⟨v, hv⟩ := m.gap_reaches mid
    obtain ⟨w, hw⟩ := ihy
    exact ⟨u ++ v ++ w, (hu.trans hv).trans hw⟩
  | @again m _ c _ _ _ _ _ _ ihx ih =>
    obtain ⟨u, hu⟩ := m.gap_reaches c
    obtain ⟨v, hv⟩ := ihx
    obtain ⟨w, hw⟩ := ih
    exact ⟨u ++ v ++ w, (hu.trans hv).trans hw⟩
  | many _ _ ihx ih =>
    obtain ⟨v, hv⟩ := ihx
    obtain ⟨w, hw⟩ := ih
    exact ⟨v ++ w, hv.trans hw⟩

theorem Takes.of_rule {m : Mode} {r : ρ} {c d : Cursor} {ts : List (Derivation ρ)}
    (h : Takes g m (.once (.rule r)) c ts d) :
    ∃ parts, Takes g (g.inner r m) (.once (g.body r)) c parts d ∧
      ts = if m.token then [] else [.node r ⟨c.offset, d.offset⟩ parts] := by
  cases h with
  | rule h => exact ⟨_, h, rfl⟩

/-! ## Matches inside a token -/

section Token

variable {m : Mode} {x y : Peg ρ} {c d : Cursor} {ts : List (Derivation ρ)}

theorem Takes.of_word {w : List Char} (h : Takes g m (.once (.word w)) c ts d) : c.Reaches w d := by
  cases h with
  | word h => exact reaches_of_afterWord? h

theorem Takes.of_one {p : Char → Bool} (h : Takes g m (.once (.one p)) c ts d) :
    ∃ ch, p ch = true ∧ c.Reaches [ch] d := by
  cases h with
  | @one _ _ _ ch _ h => exact ⟨ch, h, rfl, rfl⟩

theorem Takes.of_seq (hm : m.token = true) (h : Takes g m (.once (.seq x y)) c ts d) :
    ∃ before mid behind, Takes g m (.once x) c before mid ∧ Takes g m (.once y) mid behind d := by
  cases h with
  | seq hx hy =>
    rw [Mode.gap_of_token hm] at hy
    exact ⟨_, _, _, hx, hy⟩

theorem Takes.of_notAhead (h : Takes g m (.once (.notAhead x)) c ts d) :
    d = c ∧ ∃ m, Refuses g m x c := by
  cases h with
  | notAhead h => exact ⟨rfl, _, h⟩

theorem Takes.of_further {R : Cursor → Cursor → Prop} {k : Trial ρ} (hm : m.token = true)
    (hrefl : ∀ c, R c c) (hstep : ∀ c ts d e, Takes g m (.once x) c ts d → R d e → R c e)
    (h : Takes g m k c ts d) (hk : k = .further x) : R c d := by
  induction h with
  | done => exact hrefl _
  | again hx _ _ ih =>
    cases hk
    rw [Mode.gap_of_token hm] at hx
    exact hstep _ _ _ _ hx (ih hm hstep rfl)
  | _ => cases hk

/-- What every repetition keeps, all of them together keep. -/
theorem Takes.of_many {R : Cursor → Cursor → Prop} (hm : m.token = true)
    (hrefl : ∀ c, R c c) (hstep : ∀ c ts d e, Takes g m (.once x) c ts d → R d e → R c e)
    (h : Takes g m (.once (.many x)) c ts d) : R c d := by
  cases h with
  | never => exact hrefl c
  | many hx h => exact hstep _ _ _ _ hx (h.of_further hm hrefl hstep rfl)

theorem afterWord?_append (w rest : List Char) : afterWord? w (w ++ rest) = some rest := by
  induction w with
  | nil => rfl
  | cons ch w ih => simp [afterWord?, ih]

theorem takeWord_append {w rest : List Char} (m : Mode) (hc : c.rest = w ++ rest)
    (a a' : Attempts ρ) : takeWord m w c a ≠ .failed a' := by
  simp [takeWord, hc, afterWord?_append]

theorem Refuses.word_ne {w : List Char} (h : Refuses g m (.word w) c) (rest : List Char) :
    c.rest ≠ w ++ rest := by
  obtain ⟨n, a, a', h⟩ := h
  intro hc
  cases n with
  | zero => cases h
  | succ n => exact takeWord_append m hc a a' (Option.some.inj h)

theorem Refuses.words_ne {w : List Char} {ws : List (List Char)} (h : Refuses g m (.words ws) c)
    (hw : w ∈ ws) (rest : List Char) : c.rest ≠ w ++ rest := by
  obtain ⟨n, a, a', h⟩ := h
  intro hc
  cases n with
  | zero => cases h
  | succ n =>
    simp only [run] at h
    split at h
    · rename_i v hv
      have hprefix : v.isPrefixOf c.rest = true := by
        unfold firstWord? at hv
        have := List.find?_some hv
        exact this
      obtain ⟨rest', hv'⟩ := List.isPrefixOf_iff_prefix.1 hprefix
      exact takeWord_append m hv'.symm a a' (Option.some.inj h)
    · rename_i hnone
      have := List.find?_eq_none.1 hnone w hw
      exact this (List.isPrefixOf_iff_prefix.2 ⟨rest, hc.symm⟩)

theorem Refuses.one_ne {p : Char → Bool} (h : Refuses g m (.one p) c) {ch : Char}
    (hp : p ch = true) (rest : List Char) : c.rest ≠ ch :: rest := by
  obtain ⟨n, a, a', h⟩ := h
  intro hc
  cases n with
  | zero => cases h
  | succ n => simp [run, hc, hp] at h

theorem Refuses.of_seq (hm : m.token = true) (h : Refuses g m (.seq x y) c) :
    Refuses g m x c ∨ ∃ ts d, Takes g m (.once x) c ts d ∧ Refuses g m y d := by
  obtain ⟨n, a, a', h⟩ := h
  cases n with
  | zero => cases h
  | succ n =>
    simp only [run] at h
    split at h
    · cases h
    · rename_i hx
      exact .inl ⟨n, _, _, hx⟩
    · rename_i ts d a'' hx
      rw [Mode.gap_of_token hm] at h
      split at h
      · cases h
      · rename_i hy
        exact .inr ⟨ts, d, takes_of_run hx, n, _, _, hy⟩
      · cases h

end Token

/-! ## Lexemes -/

inductive Lexeme (ρ : Type) where
  | word (span : Span)
  | comment (span : Span)
  | token (rule : ρ) (span : Span)

namespace Lexeme

def span : Lexeme ρ → Span
  | .word s | .comment s | .token _ s => s

def comment? : Lexeme ρ → Option Span
  | .comment s => some s
  | _ => none

def solid? : Lexeme ρ → Option Span
  | .comment _ => none
  | .word s | .token _ s => some s

theorem span_of_comment? {l : Lexeme ρ} {s : Span} (h : l.comment? = some s) : l.span = s := by
  cases l <;> cases h
  rfl

theorem span_of_solid? {l : Lexeme ρ} {s : Span} (h : l.solid? = some s) : l.span = s := by
  cases l <;> cases h <;> rfl

end Lexeme

mutual

def Rules.lexemes (g : Rules ρ) : Derivation ρ → List (Lexeme ρ)
  | .node r s parts => if g.kind r = .token then [.token r s] else g.lexemesAll parts
  | .word s => [.word s]
  | .comment s => [.comment s]

def Rules.lexemesAll (g : Rules ρ) : List (Derivation ρ) → List (Lexeme ρ)
  | [] => []
  | t :: ts => g.lexemes t ++ g.lexemesAll ts

end

namespace Rules

@[simp] theorem lexemesAll_append (g : Rules ρ) (ts us : List (Derivation ρ)) :
    g.lexemesAll (ts ++ us) = g.lexemesAll ts ++ g.lexemesAll us := by
  induction ts with
  | nil => rfl
  | cons t ts ih => simp only [List.cons_append, lexemesAll, ih, List.append_assoc]

@[simp] theorem lexemesAll_comments (g : Rules ρ) (ss : List Span) :
    g.lexemesAll (ss.map .comment) = ss.map .comment := by
  induction ss with
  | nil => rfl
  | cons s ss ih => simp only [List.map_cons, lexemesAll, lexemes, ih, List.singleton_append]

end Rules

section Order

variable {m : Mode} {k : Trial ρ} {c d : Cursor} {ts : List (Derivation ρ)}

theorem leaf_inOrder (g : Rules ρ) (m : Mode) (o n : Nat) :
    InOrder o ((g.lexemesAll (m.leaf ⟨o, o + n⟩)).map Lexeme.span) (o + n) := by
  cases hm : m.token with
  | false => simp [Mode.leaf, hm, Rules.lexemesAll, Rules.lexemes, Lexeme.span, InOrder]
  | true => simp [Mode.leaf, hm, Rules.lexemesAll, InOrder]

theorem gapLeaves_inOrder (g : Rules ρ) (m : Mode) (c : Cursor) :
    InOrder c.offset ((g.lexemesAll (m.gapLeaves c)).map Lexeme.span) (m.gap c).2.offset := by
  have hspan : (Lexeme.span : Lexeme ρ → Span) ∘ Lexeme.comment = id := rfl
  rw [Mode.gapLeaves, Rules.lexemesAll_comments, List.map_map, hspan, List.map_id]
  exact m.gap_inOrder c

/-- Words, tokens and comments of a match lie one behind the other. -/
theorem Takes.inOrder (h : Takes g m k c ts d) :
    InOrder c.offset ((g.lexemesAll ts).map Lexeme.span) d.offset := by
  induction h with
  | word | words | one => exact leaf_inOrder g _ _ _
  | startOfText | endOfText | absent | never | ahead | notAhead | done => exact Nat.le_refl _
  | @rule m r c parts d _ ih =>
    cases hm : m.token with
    | true => exact ih.le
    | false =>
      by_cases hr : g.kind r = .token
      · simpa [Rules.lexemesAll, Rules.lexemes, hr, Lexeme.span, InOrder] using ih.le
      · simpa [Rules.lexemesAll, Rules.lexemes, hr] using ih
  | left _ ih | right _ _ ih | present _ ih => exact ih
  | @seq m _ _ _ _ mid _ _ _ _ ihx ihy =>
    simp only [Rules.lexemesAll_append, List.map_append]
    exact (ihx.append (gapLeaves_inOrder g m mid)).append ihy
  | many _ _ ihx ih =>
    simp only [Rules.lexemesAll_append, List.map_append]
    exact ihx.append ih
  | @again m _ c _ _ _ _ _ _ ihx ih =>
    simp only [Rules.lexemesAll_append, List.map_append]
    exact ((gapLeaves_inOrder g m c).append ihx).append ih

end Order

end Transcribe.Grammar
