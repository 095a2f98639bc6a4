/-
  Transcribe.Proofs.Token — tokens of a text that parses, and the pass that finds comments.

  The loop in which the pass reads a literal starts at its opening quote and ends behind its closing
  quote, or before a line break. Where that is the end of the literal itself, for every literal of
  the text, the pass is in code at both ends of every token, and so at both ends of every node.

  The condition is decided by the text: `loopEnd?` finds where the loop ends and `literalsEnd` asks
  it of every literal among the lexemes. What a walk from token to token then has met is `Passed`,
  and a text it can be said of as a whole is `Clear`: its table has the comments of its lexemes and
  no others, and every token lies between two places in code.
  - `commentsFrom_literal`: the pass behind a literal at whose end its loop ends.
  - `Walk.onCode`: the pass is in code at both ends of every token.
  - `Good.onCode`: and of every node.
-/

import Transcribe.Proofs.OnCode
import Transcribe.Proofs.Nest

namespace Transcribe.Text

def literalLength (quote : Char) : List Char → Nat
  | '\\' :: c :: cs => 1 + c.utf8Size + literalLength quote cs
  | c :: cs =>
    if c == quote then c.utf8Size
    else if isBreak c then 0
    else c.utf8Size + literalLength quote cs
  | [] => 0

theorem eq_nil_of_byteLength {v : List Char} (h : byteLength v = 0) : v = [] := by
  cases v with
  | nil => rfl
  | cons c v =>
    have := c.utf8Size_pos
    simp only [byteLength_cons] at h
    omega

/-- A text is cut in one way at an offset. -/
theorem append_inj_of_byteLength {a b r r' : List Char} (h : a ++ r = b ++ r')
    (hlen : byteLength a = byteLength b) : a = b ∧ r = r' := by
  have hdrop := dropBytes?_byteLength_append a r
  rw [h, hlen, dropBytes?_byteLength_append] at hdrop
  obtain rfl := Option.some.inj hdrop
  exact ⟨List.append_cancel_right h, rfl⟩

/-- Of two beginnings of a text the shorter is a beginning of the longer. -/
theorem exists_append_of_le {a b c d : List Char} (h : a ++ b = c ++ d)
    (hle : byteLength a ≤ byteLength c) : ∃ e, c = a ++ e ∧ b = e ++ d := by
  rcases List.append_eq_append_iff.1 h with hlong | ⟨e, rfl, rfl⟩
  · exact hlong
  · rw [byteLength_append] at hle
    obtain rfl := eq_nil_of_byteLength (show byteLength e = 0 by omega)
    exact ⟨[], by simp, by simp⟩

/-- A text with a character before a place holds that character. -/
theorem exists_cons_of_byteLength {v r cs : List Char} {c : Char} (h : v ++ r = c :: cs)
    (hv : 0 < byteLength v) : ∃ v', v = c :: v' ∧ v' ++ r = cs := by
  cases v with
  | nil => exact absurd hv (Nat.lt_irrefl 0)
  | cons d v =>
    obtain ⟨rfl, hr⟩ := List.cons.inj h
    exact ⟨v, rfl, hr⟩

/-- Behind a literal at whose end its loop ends the pass is in code. It has found nothing. -/
theorem commentsFrom_literal {q : Char} {v r : List Char} (hq : isQuote q = true)
    (h : literalLength q (v ++ r) = byteLength v) (o : Nat) :
    commentsFrom (.literal q) o (v ++ r) = commentsFrom .code (o + byteLength v) r ∧
      (Scan.finish (.literal q) v).Settles r ∧ (Scan.literal q).texts v = [] ∧
      (Scan.literal q).brackets v = [] := by
  generalize hcs : v ++ r = cs at h ⊢
  fun_induction literalLength q cs generalizing v o with
  | case1 c cs ih =>
    have hone : '\\'.utf8Size = 1 := rfl
    have hc := c.utf8Size_pos
    obtain ⟨v', rfl, hv'⟩ := exists_cons_of_byteLength hcs (by omega)
    rw [byteLength_cons, hone] at h
    obtain ⟨v, rfl, hv⟩ := exists_cons_of_byteLength hv' (by omega)
    rw [byteLength_cons] at h
    obtain ⟨hpass, hsettles, htexts, hnone⟩ := ih (o + 1 + c.utf8Size) hv (by omega)
    refine ⟨?_, hsettles, htexts, hnone⟩
    rw [commentsFrom, hpass, byteLength_cons, byteLength_cons, hone]
    simp only [Nat.add_assoc]
  | case2 c cs hne hc =>
    obtain rfl : c = q := by simpa using hc
    have := c.utf8Size_pos
    have hesc := ne_backslash_of_isQuote hq
    obtain ⟨v, rfl, hv⟩ := exists_cons_of_byteLength hcs (by omega)
    rw [byteLength_cons] at h
    obtain rfl := eq_nil_of_byteLength (v := v) (by omega)
    obtain rfl : r = cs := hv
    refine ⟨?_, ?_, ?_, rfl⟩
    · rw [commentsFrom_literal_cons fun h => absurd h hesc]
      simp
    · simpa [Scan.next, hesc] using Scan.settles_code r
    · simp [Scan.texts, Scan.next, Scan.closing, Scan.pending, hesc]
  | case3 c cs hne hc hb =>
    obtain rfl := eq_nil_of_byteLength h.symm
    obtain rfl : r = c :: cs := hcs
    have hesc : c ≠ '\\' := by
      rintro rfl
      cases hb
    refine ⟨?_, Scan.settles_cons.2 hb, rfl, rfl⟩
    rw [commentsFrom_literal_cons fun h => absurd h hesc, byteLength_nil, Nat.add_zero,
      Scan.commentsFrom_code_break hb]
    simp [hb]
  | case4 c cs hne hc hb ih =>
    have := c.utf8Size_pos
    obtain ⟨v, rfl, hv⟩ := exists_cons_of_byteLength hcs (by omega)
    rw [byteLength_cons] at h
    obtain ⟨hpass, hsettles, htexts, hnone⟩ := ih (o + c.utf8Size) hv (by omega)
    have hlast : c = '\\' → cs = [] := by
      rintro rfl
      cases cs with
      | nil => rfl
      | cons d ds => exact (hne d ds rfl rfl).elim
    have hcq : ¬ (c == q || isBreak c) = true := by simp [hc, hb]
    refine ⟨?_, ?_⟩
    · rw [commentsFrom_literal_cons hlast, if_neg hcq, hpass, byteLength_cons, Nat.add_assoc]
    · by_cases hesc : c = '\\'
      · obtain rfl := hlast hesc
        obtain ⟨rfl, rfl⟩ := List.append_eq_nil_iff.1 hv
        refine ⟨Scan.settles_nil _, ?_, rfl⟩
        simp [Scan.texts, Scan.next, Scan.closing, Scan.pending, hesc]
      · have hnext : (Scan.literal q).next c = .literal q := by
          simpa [Scan.next, hesc] using hcq
        exact ⟨by rwa [Scan.finish_cons, hnext], by rw [Scan.texts, hnext, htexts]; rfl,
          by rw [Scan.brackets_cons_inside rfl, hnext, hnone]⟩
  | case5 =>
    obtain ⟨rfl, rfl⟩ := List.append_eq_nil_iff.1 hcs
    exact ⟨rfl, Scan.settles_nil _, rfl, rfl⟩

/-! ## Block comments -/

theorem Scan.blockCloses_append {w cs : List Char} (h : blockCloses cs = true) :
    blockCloses (w ++ cs) = true := by
  induction w with
  | nil => exact h
  | cons c w ih =>
    rw [List.cons_append, blockCloses.eq_def]
    split
    · rfl
    · rename_i heq
      cases heq
      exact ih
    · rename_i heq
      cases heq

end Transcribe.Text

namespace Transcribe.Grammar

open Text (Span Source byteLength)

def Within.Opened (s : Source) (cs : List Char) : Within → Prop
  | .space => True
  | .line start => ∃ w, s.rest? start = some ('/' :: '/' :: (w ++ cs))
  | .block start _ => ∃ w, s.rest? start = some ('/' :: '*' :: (w ++ cs))

/-- A block comment of a gap is ended. -/
theorem blockCloses_of_mem_gapFrom {s : Source} {k : Within} {o : Nat} {cs t : List Char} {x : Span}
    (hrest : s.rest? o = some cs) (hopen : k.Opened s cs) (hx : x ∈ (gapFrom k o cs).1)
    (ht : s.rest? x.start = some ('/' :: '*' :: t)) : Text.Scan.blockCloses t = true := by
  have hone : '/'.utf8Size = 1 := rfl
  have hstar : '*'.utf8Size = 1 := rfl
  have hadd : ∀ {o : Nat} {c : Char} {cs : List Char}, s.rest? o = some (c :: cs) →
      s.rest? (o + c.utf8Size) = some cs := by
    intro o c cs h
    have := Text.Source.rest?_add (a := [c]) h
    simpa using this
  fun_induction gapFrom k o cs with
  | case1 o cs ih => exact ih (hadd (hadd hrest)) ⟨[], hrest⟩ hx
  | case2 o cs ih => exact ih (hadd (hadd hrest)) ⟨[], hrest⟩ hx
  | case3 o c cs _ _ hc ih =>
    exact ih (by rw [← utf8Size_of_isGapChar hc]; exact hadd hrest) trivial hx
  | case4 | case5 => cases hx
  | case6 start o c cs hc ih =>
    obtain ⟨w, hw⟩ := hopen
    rcases List.mem_cons.1 hx with rfl | hx
    · rw [hw] at ht
      cases ht
    · refine ih ?_ trivial hx
      rw [← utf8Size_of_isGapChar (isGapChar_of_isBreak hc)]
      exact hadd hrest
  | case7 start o c cs hc ih =>
    obtain ⟨w, hw⟩ := hopen
    exact ih (hadd hrest) ⟨w ++ [c], by simpa using hw⟩ hx
  | case8 start o =>
    obtain ⟨w, hw⟩ := hopen
    obtain rfl := List.mem_singleton.1 hx
    rw [hw] at ht
    cases ht
  | case9 start opening o cs ih =>
    obtain ⟨w, hw⟩ := hopen
    rcases List.mem_cons.1 hx with rfl | hx
    · rw [hw] at ht
      cases ht
      exact Text.Scan.blockCloses_append rfl
    · exact ih (hadd (hadd hrest)) trivial hx
  | case10 start opening o c cs hc ih =>
    obtain ⟨w, hw⟩ := hopen
    exact ih (hadd hrest) ⟨w ++ [c], by simpa using hw⟩ hx
  | case11 => cases hx

end Transcribe.Grammar

namespace Transcribe.Java

open Grammar
open Text (Span Source byteLength literalLength)

/-! ## Literals -/

def isLiteral : Rule → Bool
  | .charLiteral | .stringLiteral => true
  | _ => false

/-- Where the loop ends in which the pass reads the literal that opens at `o`. -/
def loopEnd? (s : Source) (o : Nat) : Option Nat :=
  match s.rest? o with
  | some (quote :: cs) => some (o + quote.utf8Size + literalLength quote cs)
  | _ => none

def literalsEnd (s : Source) (ls : List (Lexeme Rule)) : Bool :=
  ls.all fun
    | .token r a => !isLiteral r || loopEnd? s a.start == some a.stop
    | _ => true

theorem loopEnd?_of_mem {s : Source} {ls : List (Lexeme Rule)} {r : Rule} {a : Span}
    (h : literalsEnd s ls = true) (hr : isLiteral r = true) (ha : .token r a ∈ ls) :
    loopEnd? s a.start = some a.stop := by
  have := List.all_eq_true.1 h _ ha
  simpa [hr] using this

theorem literalLength_of_loopEnd? {s : Source} {o : Nat} {q : Char} {v r : List Char}
    (hrest : s.rest? o = some (q :: (v ++ r)))
    (h : loopEnd? s o = some (o + byteLength (q :: v))) : literalLength q (v ++ r) = byteLength v := by
  simp only [loopEnd?, hrest, Option.some.injEq, Text.byteLength_cons] at h
  omega

/-- Over a literal at whose end its loop ends the pass is in step. -/
theorem inStep_literal {s : Source} {c d : Cursor} {q : Char} {v : List Char} (hon : c.On s)
    (hq : Text.isQuote q = true) (hreach : c.Reaches (q :: v) d)
    (h : loopEnd? s c.offset = some d.offset) : InStep c [] d := by
  have hrest : s.rest? c.offset = some (q :: (v ++ d.rest)) := by
    rw [hon, hreach.rest_eq]
    rfl
  rw [hreach.offset_eq] at h
  have hlength := literalLength_of_loopEnd? hrest h
  have hne : q ≠ '/' := by
    rintro rfl
    cases hq
  unfold InStep
  rw [hreach.rest_eq, List.cons_append, Text.Scan.commentsFrom_code_of_ne hne, if_pos hq,
    (Text.commentsFrom_literal hq hlength _).1, hreach.offset_eq, Text.byteLength_cons,
    Nat.add_assoc]
  rfl

/-! ## Along a walk -/

variable {s : Source} {ls : List (Lexeme Rule)}

theorem onCode_of_inStep {c d : Cursor} {w : List Char} (hcode : s.OnCode c.offset) (hon : c.On s)
    (hreach : c.Reaches w d) (hstep : InStep c ls d)
    (hle : ∀ x ∈ commentsOf ls, x.stop ≤ d.offset) : s.OnCode d.offset := by
  rw [Cursor.On, hreach.rest_eq] at hon
  rw [InStep, hreach.rest_eq, hreach.offset_eq] at hstep
  rw [hreach.offset_eq] at hle ⊢
  exact (hcode.passes hon hstep hle).1

/-- What a walk from `c` to `d` passes: the table has its comments, each of which is ended, and the
pass is in code at both ends of every token. -/
structure Passed (s : Source) (c : Cursor) (ls : List (Lexeme Rule)) (d : Cursor) : Prop where
  inStep : InStep c ls d
  onCode : ∀ a ∈ ls.filterMap Lexeme.solid?, s.OnCode a.start ∧ s.OnCode a.stop
  closes : ∀ x ∈ commentsOf ls, ∀ t, s.rest? x.start = some ('/' :: '*' :: t) →
    Text.Scan.blockCloses t = true

/-- One token more. -/
theorem Passed.cons {c mid d : Cursor} {l : Lexeme Rule} {w : List Char} (hl : l.comment? = none)
    (hspan : l.span = ⟨c.offset, mid.offset⟩) (hcode : s.OnCode c.offset) (hon : c.On s)
    (hreach : c.Reaches w mid) (hstep : InStep c [] mid)
    (hrest : s.OnCode mid.offset → mid.On s → Passed s mid ls d) : Passed s c (l :: ls) d := by
  have hmid := onCode_of_inStep hcode hon hreach hstep (by simp)
  obtain ⟨hstep', hsolid, hcloses⟩ := hrest hmid (hreach.on hon)
  have hcomments : commentsOf (l :: ls) = commentsOf ls := List.filterMap_cons_none hl
  refine ⟨?_, ?_, by rwa [hcomments]⟩
  · unfold InStep at *
    rw [hstep, hstep', List.filterMap_cons_none hl]
    rfl
  · intro a ha
    obtain ⟨k, hk, hka⟩ := List.mem_filterMap.1 ha
    rcases List.mem_cons.1 hk with rfl | hk
    · rw [← Lexeme.span_of_solid? hka, hspan]
      exact ⟨hcode, hmid⟩
    · exact hsolid a (List.mem_filterMap.2 ⟨k, hk, hka⟩)

theorem Walk.passed {c d : Cursor} (h : Walk c ls d) (hon : c.On s) (hcode : s.OnCode c.offset)
    (hlit : literalsEnd s ls = true) : Passed s c ls d := by
  induction h with
  | done => exact ⟨.refl _, by simp, by simp⟩
  | @skip c d ls _ ih =>
    obtain ⟨w, hw⟩ := (gapTo_gap c).reaches
    have hgap : ∀ x ∈ commentsOf ((gap c).1.map Lexeme.comment), x ∈ (gap c).1 := by
      intro x hx
      simpa [commentsOf, Lexeme.comment?] using hx
    have hmid : s.OnCode (gap c).2.offset :=
      onCode_of_inStep hcode hon hw (inStep_gap c) fun x hx =>
        Grammar.Split.stop_le_of_inOrder (gapTo_gap c).inOrder (hgap x hx)
    have hlit' : literalsEnd s ls = true := by
      rw [literalsEnd, List.all_append, Bool.and_eq_true] at hlit
      exact hlit.2
    obtain ⟨hstep, hsolid, hcloses⟩ := ih (hw.on hon) hmid hlit'
    refine ⟨(inStep_gap c).append hstep, ?_, ?_⟩
    · intro a ha
      rw [List.filterMap_append, List.mem_append] at ha
      rcases ha with ha | ha
      · simp [Lexeme.solid?] at ha
      · exact hsolid a ha
    · intro x hx t ht
      rw [commentsOf_append, List.mem_append] at hx
      rcases hx with hx | hx
      · exact blockCloses_of_mem_gapFrom (k := .space) hon trivial (hgap x hx) ht
      · exact hcloses x hx t ht
  | @solid c mid d l ls hl _ hspan hreach hstep _ ih =>
    obtain ⟨w, hw⟩ := hreach
    have hlit' : literalsEnd s ls = true := (Bool.and_eq_true_iff.1 hlit).2
    exact .cons hl hspan hcode hon hw hstep fun hmid hon' => ih hon' hmid hlit'
  | @literal m c mid d parts ls hm h _ ih =>
    have hlit' : literalsEnd s ls = true := (Bool.and_eq_true_iff.1 hlit).2
    have hloop := loopEnd?_of_mem hlit rfl List.mem_cons_self
    rw [body_charLiteral] at h
    obtain ⟨v, hv⟩ := quoted_of_takes hm h
    exact .cons rfl rfl hcode hon hv (inStep_literal hon rfl hv hloop)
      fun hmid hon' => ih hon' hmid hlit'

/-! ## Nodes -/

structure Clear (s : Source) (ls : List (Lexeme Rule)) : Prop where
  table : s.comments = commentsOf ls
  isSealed : s.Sealed
  onCode : ∀ a ∈ ls.filterMap Lexeme.solid?, s.OnCode a.start ∧ s.OnCode a.stop
  literals : literalsEnd s ls = true

/-- A text in the grammar is clear if the loop of every literal ends where the literal does. -/
theorem clear_of_derivation {t : Derivation Rule} (h : derivation? s = some t)
    (hlit : literalsEnd s (Rule.grammar.lexemes t) = true) : Clear s (Rule.grammar.lexemes t) := by
  obtain ⟨d, hwalk, hend, -⟩ := walk_of_derivation h
  obtain ⟨hstep, hsolid, hcloses⟩ :=
    hwalk.passed (Text.dropBytes?_zero _) Source.onCode_zero hlit
  have htable : s.comments = commentsOf (Rule.grammar.lexemes t) := by
    unfold InStep at hstep
    rw [s.comments_eq, Text.comments, hstep, hend]
    simp [Text.commentsFrom]
  exact ⟨htable, fun x hx => hcloses x (htable ▸ hx), hsolid, hlit⟩

/-- A word or node begins where one of its tokens begins and ends where one ends. -/
theorem Grown.ends {i : Item} (h : Grown s ls i) :
    (∃ a ∈ ls.filterMap Lexeme.solid?, a.start = i.span.start) ∧
      ∃ b ∈ ls.filterMap Lexeme.solid?, b.stop = i.span.stop := by
  induction h with
  | @word sp hlex =>
    have hmem : sp ∈ ls.filterMap Lexeme.solid? := List.mem_filterMap.2 ⟨_, hlex, rfl⟩
    exact ⟨⟨sp, hmem, rfl⟩, sp, hmem, rfl⟩
  | @token _ sp _ _ _ hlex =>
    have hmem : sp ∈ ls.filterMap Lexeme.solid? := List.mem_filterMap.2 ⟨_, hlex, rfl⟩
    exact ⟨⟨sp, hmem, rfl⟩, sp, hmem, rfl⟩
  | @tree _ _ _ _ _ items _ _ _ hne _ _ _ ih =>
    cases items with
    | nil => exact absurd rfl hne
    | cons i items => exact ⟨(ih i List.mem_cons_self).1, (ih _ (List.getLast_mem hne)).2⟩

theorem Clear.ends (hclear : Clear s ls) {i : Item} (h : Grown s ls i) :
    s.OnCode i.span.start ∧ s.OnCode i.span.stop := by
  obtain ⟨⟨a, ha, hstart⟩, b, hb, hstop⟩ := h.ends
  rw [← hstart, ← hstop]
  exact ⟨(hclear.onCode a ha).1, (hclear.onCode b hb).2⟩

/-- At both ends of a node that one rule matches the pass is in code. -/
theorem Good.onCode {n : Node} {r : Rule} (h : Good s ls n) (hclear : Clear s ls)
    (hr : n.rule? = some r) : s.OnCode n.span.start ∧ s.OnCode n.span.stop := by
  obtain ⟨raw, parts, p, -, hgrown⟩ := h.born r hr
  exact hclear.ends hgrown

end Transcribe.Java
