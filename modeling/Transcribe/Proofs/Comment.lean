/-
  Transcribe.Proofs.Comment — the table of comments of a text that parses.

  Along the walk a parse makes through its text, the table holds the comments between the tokens
  as long as every character literal is closed. The first literal that is not throws the pass
  off, and a comment right behind it is missing from the table.

  A text that parses has a derivation (`derivation?`), and its lexemes are all it is made of, blanks
  apart. Whether the literals among them are closed can be read off the text (`literalsClosed`). A
  backslash before the last apostrophe is enough to leave one open: `'\a\'` is a literal of the
  grammar, and to the pass its last apostrophe is an escaped one.
  - `Walk.inStep`: over closed literals the table and the walk agree.
  - `mem_comments_iff_closed`: the comment right behind a literal.
  - `comments_eq_of_parse`: both, for every text that parses.
-/

import Transcribe.Proofs.Walk
import Transcribe.Java.Parse

namespace Transcribe.Java

open Grammar
open Text (Span Source byteLength commentsFrom comments closed slice?)

variable {cs : List Char} {c d : Cursor} {s : Source} {t : Derivation Rule}

/-! ## Closed literals -/

def closedAt (cs : List Char) (s : Span) : Bool := (slice? cs s).any closed

def literalsClosed (cs : List Char) (ls : List (Lexeme Rule)) : Bool :=
  ls.all fun
    | .token .charLiteral s => closedAt cs s
    | _ => true

theorem literalsClosed_append {ks ls : List (Lexeme Rule)} :
    literalsClosed cs (ks ++ ls) = true
      ↔ literalsClosed cs ks = true ∧ literalsClosed cs ls = true := by
  rw [literalsClosed, List.all_append, Bool.and_eq_true]
  rfl

theorem literalsClosed_cons {l : Lexeme Rule} {ls : List (Lexeme Rule)} :
    literalsClosed cs (l :: ls) = true
      ↔ literalsClosed cs [l] = true ∧ literalsClosed cs ls = true :=
  @literalsClosed_append cs [l] ls

theorem slice?_of_reaches {v w : List Char} (hc : Cursor.Reaches ⟨0, cs⟩ v c) (hd : c.Reaches w d) :
    slice? cs ⟨c.offset, d.offset⟩ = some w := by
  have hcs : cs = v ++ w ++ d.rest := by
    rw [List.append_assoc, ← hd.rest_eq]
    exact hc.rest_eq
  have hoffset : c.offset = byteLength v := by
    rw [hc.offset_eq, Nat.zero_add]
  rw [hd.offset_eq, hoffset, hcs, Text.slice?_append]

theorem closedAt_of_reaches {v w : List Char} (hc : Cursor.Reaches ⟨0, cs⟩ v c) (hd : c.Reaches w d) :
    closedAt cs ⟨c.offset, d.offset⟩ = closed w := by
  rw [closedAt, slice?_of_reaches hc hd]
  rfl

theorem inStep_closed {w : List Char} (hw : closed w = true) (h : c.Reaches w d) :
    InStep c [] d := by
  unfold InStep
  rw [h.rest_eq, h.offset_eq, Text.commentsFrom_closed hw]
  rfl

namespace Walk

variable {c d : Cursor} {ls : List (Lexeme Rule)} {cs : List Char}

/-- Along a walk over closed literals the table holds the comments passed. -/
theorem inStep (h : Walk c ls d) (hon : ∃ v, Cursor.Reaches ⟨0, cs⟩ v c)
    (hlit : literalsClosed cs ls = true) : InStep c ls d := by
  induction h with
  | done => exact .refl _
  | @skip c d ls _ ih =>
    obtain ⟨v, hv⟩ := hon
    obtain ⟨w, hw⟩ := (gapTo_gap c).reaches
    exact (inStep_gap c).append (ih ⟨_, hv.trans hw⟩ (literalsClosed_append.1 hlit).2)
  | @solid c mid d l ls hl _ _ hreach hstep _ ih =>
    obtain ⟨v, hv⟩ := hon
    obtain ⟨w, hw⟩ := hreach
    have hrest := ih ⟨_, hv.trans hw⟩ (literalsClosed_cons.1 hlit).2
    unfold InStep at *
    rw [hstep, hrest, List.filterMap_cons_none hl]
    rfl
  | @literal m c mid d parts ls hm h _ ih =>
    obtain ⟨v, hv⟩ := hon
    obtain ⟨w, hw⟩ := h.reaches
    obtain ⟨hclosed, hrest⟩ := literalsClosed_cons.1 hlit
    have hw' : closed w = true := by
      simpa [literalsClosed, closedAt_of_reaches hv hw] using hclosed
    exact (inStep_closed hw' hw).append (ih ⟨_, hv.trans hw⟩ hrest)

/-- A walk can be cut at a character literal. -/
theorem of_append_literal {pre post : List (Lexeme Rule)} {a : Span}
    (h : Walk c (pre ++ .token .charLiteral a :: post) d) :
    ∃ m c' mid parts, m.token = true ∧ Walk c pre c' ∧
      Takes Rule.grammar m (.once (Rule.grammar.body .charLiteral)) c' parts mid ∧
      a = ⟨c'.offset, mid.offset⟩ ∧ Walk mid post d := by
  generalize hls : pre ++ .token .charLiteral a :: post = ls at h
  induction h generalizing pre with
  | done => simp at hls
  | @skip c d ls _ ih =>
    -- The literal is none of the comments of the gap, so the gap lies before it.
    obtain ⟨bs, rfl, rfl⟩ : ∃ bs, pre = (gap c).1.map .comment ++ bs ∧
        ls = bs ++ .token .charLiteral a :: post := by
      rcases List.append_eq_append_iff.1 hls with ⟨as, hmap, has⟩ | ⟨bs, hpre, hls⟩
      · cases as with
        | nil => exact ⟨[], by simpa using hmap.symm, by simpa using has.symm⟩
        | cons x as =>
          cases has
          have hmem : .token .charLiteral a ∈ (gap c).1.map (Lexeme.comment : _ → Lexeme Rule) := by
            rw [hmap]
            simp
          simp at hmem
      · exact ⟨bs, hpre, hls⟩
    obtain ⟨m, c', mid, parts, hm, hpre, hlit, ha, hpost⟩ := ih rfl
    exact ⟨m, c', mid, parts, hm, .skip hpre, hlit, ha, hpost⟩
  | @solid c mid d l ls hl hne hspan hreach hstep _ ih =>
    cases pre with
    | nil =>
      cases hls
      exact absurd rfl (hne a)
    | cons x pre =>
      cases hls
      obtain ⟨m, c', mid', parts, hm, hpre, hlit, ha, hpost⟩ := ih rfl
      exact ⟨m, c', mid', parts, hm, .solid hl hne hspan hreach hstep hpre, hlit, ha, hpost⟩
  | @literal m c mid d parts ls hm h hrest ih =>
    cases pre with
    | nil =>
      cases hls
      exact ⟨m, c, mid, parts, hm, .done, h, rfl, hrest⟩
    | cons x pre =>
      cases hls
      obtain ⟨m', c', mid', parts', hm', hpre, hlit, ha, hpost⟩ := ih rfl
      exact ⟨m', c', mid', parts', hm', .literal hm h hpre, hlit, ha, hpost⟩

/-- A comment a walk comes to first is the first the table has from there. -/
theorem commentsFrom_of_comment {b : Span} {post : List (Lexeme Rule)}
    (h : Walk c (.comment b :: post) d) :
    ∃ ss, commentsFrom .code c.offset c.rest = b :: ss := by
  generalize hls : .comment b :: post = ls at h
  induction h with
  | done => cases hls
  | @skip c d ls _ ih =>
    rw [(gapTo_gap c).inStep]
    cases hss : (gap c).1 with
    | nil =>
      rw [hss] at hls
      exact ih hls
    | cons s ss =>
      rw [hss] at hls
      cases hls
      exact ⟨_, rfl⟩
  | solid hl =>
    cases hls
    cases hl
  | literal => cases hls

end Walk

/-! ## Whole texts -/

def unitParts : Peg Rule :=
  .seq (.opt (.rule .packageDeclaration)) (.seq (.many (.rule .importDeclaration))
    (.seq (.many (.rule .typeDeclaration)) (.rule .endOfInput)))

theorem body_compilationUnit :
    Rule.grammar.body .compilationUnit = .seq .startOfText unitParts := rfl

theorem body_endOfInput : Rule.grammar.body .endOfInput = .endOfText := rfl

theorem rest_eq_nil_of_unitParts {m : Mode} {ts : List (Derivation Rule)}
    (h : Takes Rule.grammar m (.once unitParts) c ts d) : d.rest = [] := by
  cases h with
  | seq _ h =>
  cases h with
  | seq _ h =>
  cases h with
  | seq _ h =>
  cases h with
  | rule h =>
    rw [body_endOfInput] at h
    cases h with
    | endOfText h => exact h

def treeOf? : Outcome Rule → Option (Derivation Rule)
  | .matched [t] _ _ => some t
  | _ => none

def derivation? (s : Source) : Option (Derivation Rule) :=
  (Rule.grammar.match? .compilationUnit s.chars).bind treeOf?

theorem takes_of_derivation? (h : derivation? s = some t) :
    ∃ d, Takes Rule.grammar ⟨false, .none⟩ (.once (.rule .compilationUnit)) ⟨0, s.chars⟩ [t] d := by
  obtain ⟨o, hmatch, ho⟩ := Option.bind_eq_some_iff.1 h
  unfold treeOf? at ho
  split at ho
  · rename_i d a
    cases ho
    exact ⟨d, takes_of_run hmatch⟩
  · cases ho

theorem exists_derivation {u : CompilationUnit} (h : parseSource s = .ok u) :
    ∃ t, derivation? s = some t ∧ CompilationUnit.ofDerivation? s t = some u := by
  unfold parseSource at h
  split at h
  · cases h
  · cases h
  · rename_i trees d a hmatch
    split at h
    · rename_i t
      split at h
      · rename_i u' hu
        cases h
        exact ⟨t, Option.bind_eq_some_iff.2 ⟨_, hmatch, rfl⟩, hu⟩
      · cases h
    · cases h

theorem piecesOf_of_ofDerivation? {u : CompilationUnit}
    (h : CompilationUnit.ofDerivation? s t = some u) : piecesOf s t = some [.unit u] := by
  unfold CompilationUnit.ofDerivation? at h
  split at h
  · rename_i hpieces
    cases h
    exact hpieces
  · cases h

/-- What a text in the grammar is: a walk to its end, over lexemes in order. -/
theorem walk_of_derivation (h : derivation? s = some t) :
    ∃ d, Walk ⟨0, s.chars⟩ (Rule.grammar.lexemes t) d ∧ d.rest = [] ∧
      InOrder 0 ((Rule.grammar.lexemes t).map Lexeme.span) d.offset := by
  obtain ⟨d, h⟩ := takes_of_derivation? h
  have horder := h.inOrder
  obtain ⟨parts, hparts, ht⟩ := h.of_rule
  obtain rfl : t = .node .compilationUnit ⟨0, d.offset⟩ parts := List.singleton_inj.1 ht
  have hlex : Rule.grammar.lexemes (.node .compilationUnit ⟨0, d.offset⟩ parts)
      = Rule.grammar.lexemesAll parts := rfl
  rw [Rules.lexemesAll, Rules.lexemesAll, List.append_nil] at horder
  refine ⟨d, ?_, ?_, horder⟩
  all_goals rw [body_compilationUnit] at hparts
  · rw [hlex]
    cases hparts with
    | seq hstart hunit =>
      cases hstart
      have hlevel : level false unitParts = true := by decide
      simp only [Rules.lexemesAll_append]
      exact (Walk.ofGap rfl _).append
        (walk_of_takes rfl hunit hlevel (fun _ _ => (gapTo_gap _).gap_eq) (by simp))
  · cases hparts with
    | seq _ hunit => exact rest_eq_nil_of_unitParts hunit

theorem comments_of_closed (h : derivation? s = some t)
    (hlit : literalsClosed s.chars (Rule.grammar.lexemes t) = true) :
    s.comments = (Rule.grammar.lexemes t).filterMap Lexeme.comment? := by
  obtain ⟨d, hwalk, hend, -⟩ := walk_of_derivation h
  have hstep := hwalk.inStep ⟨[], .refl _⟩ hlit
  unfold InStep at hstep
  rw [s.comments_eq, comments, hstep, hend]
  simp [commentsFrom]

def Apart (a b : Span) : Prop := a.stop ≤ b.start ∨ b.stop ≤ a.start

/-- No comment of a derivation reaches into one of its tokens. -/
theorem apart_of_derivation (h : derivation? s = some t) :
    ∀ a ∈ (Rule.grammar.lexemes t).filterMap Lexeme.comment?,
      ∀ b ∈ (Rule.grammar.lexemes t).filterMap Lexeme.solid?, Apart a b := by
  obtain ⟨d, -, -, horder⟩ := walk_of_derivation h
  have hpair := List.pairwise_map.1 horder.pairwise
  have hall : ∀ x ∈ Rule.grammar.lexemes t, ∀ y ∈ Rule.grammar.lexemes t,
      ∀ a b, x.comment? = some a → y.solid? = some b → Apart a b := by
    refine List.Pairwise.forall_of_forall_of_flip ?_ (hpair.imp ?_) (hpair.imp ?_)
    · rintro (_ | _ | _) _ a b ⟨⟩ ⟨⟩
    · intro x y hxy a b ha hb
      rw [Lexeme.span_of_comment? ha, Lexeme.span_of_solid? hb] at hxy
      exact .inl hxy
    · intro x y hxy a b ha hb
      rw [Lexeme.span_of_comment? ha, Lexeme.span_of_solid? hb] at hxy
      exact .inr hxy
  intro a ha b hb
  obtain ⟨x, hx, ha⟩ := List.mem_filterMap.1 ha
  obtain ⟨y, hy, hb⟩ := List.mem_filterMap.1 hb
  exact hall x hx y hy a b ha hb

/-- Behind closed literals only, a comment right behind a character literal is in the table exactly
if that literal is closed too. -/
theorem mem_comments_iff_closed (h : derivation? s = some t) {pre post : List (Lexeme Rule)}
    {a b : Span} (ht : Rule.grammar.lexemes t = pre ++ .token .charLiteral a :: .comment b :: post)
    (hpre : literalsClosed s.chars pre = true) (hab : b.start = a.stop) :
    b ∈ s.comments ↔ closedAt s.chars a = true := by
  obtain ⟨d, hwalk, -, horder⟩ := walk_of_derivation h
  rw [ht] at hwalk horder
  obtain ⟨m, c, mid, parts, hm, hbefore, hlit, rfl, hafter⟩ := hwalk.of_append_literal
  obtain ⟨v, hv⟩ := hbefore.reaches
  obtain ⟨w, hw, hshape⟩ := charLiteral_shape hm hlit
  obtain ⟨ss, hss⟩ := hafter.commentsFrom_of_comment
  have htable : s.comments
      = pre.filterMap Lexeme.comment? ++ commentsFrom .code c.offset (w ++ mid.rest) := by
    have hstep := hbefore.inStep ⟨[], .refl _⟩ hpre
    unfold InStep at hstep
    rw [s.comments_eq, comments, hstep, hw.rest_eq]
  rw [closedAt_of_reaches hv hw]
  constructor
  · intro hb
    have hlt : b.start < b.stop := Text.start_lt_stop_of_mem_comments (s.comments_eq ▸ hb)
    rw [htable, List.mem_append] at hb
    rcases hb with hb | hb
    · -- The comments before the literal end before `b` begins.
      obtain ⟨x, hx, hxb⟩ := List.mem_filterMap.1 hb
      have hpair := (List.pairwise_append.1 (List.pairwise_map.1 horder.pairwise)).2.2
      have hle := hpair x hx (.comment b) (by simp)
      rw [Lexeme.span_of_comment? hxb] at hle
      exact absurd hlt (Nat.not_lt.2 hle)
    · have hmid : b.start = mid.offset := hab
      obtain ⟨rest, hrest⟩ := Text.exists_slash_of_mem_commentsFrom
        (hss ▸ List.mem_cons_self : b ∈ commentsFrom .code mid.offset mid.rest) hmid
      rw [hrest] at hb
      exact Text.closed_of_comment_behind hshape hb (hmid.trans hw.offset_eq)
  · intro hclosed
    rw [htable, Text.commentsFrom_closed hclosed, ← hw.offset_eq, hss]
    simp

theorem parseSource_of_parse {name text : String} {p : Parsed} (h : parse name text = .ok p) :
    p.source = Source.ofString name text ∧ parseSource p.source = .ok p.unit := by
  simp only [parse] at h
  cases hu : parseSource (Source.ofString name text) with
  | error f => simp [hu, Except.map] at h
  | ok u =>
    rw [hu] at h
    cases h
    exact ⟨rfl, hu⟩

/-- A text that parses. If its character literals are closed, the table holds exactly the comments
between its tokens, in order, and reaches into no token. That they are closed is needed: the first
that is not hides a comment right behind it. -/
theorem comments_eq_of_parse {name text : String} {p : Parsed} (h : parse name text = .ok p) :
    ∃ t, derivation? p.source = some t ∧ CompilationUnit.ofDerivation? p.source t = some p.unit ∧
      (literalsClosed p.source.chars (Rule.grammar.lexemes t) = true →
        p.source.comments = (Rule.grammar.lexemes t).filterMap Lexeme.comment? ∧
        ∀ a ∈ p.source.comments, ∀ b ∈ (Rule.grammar.lexemes t).filterMap Lexeme.solid?,
          Apart a b) ∧
      ∀ pre a b post,
        Rule.grammar.lexemes t = pre ++ .token .charLiteral a :: .comment b :: post →
        literalsClosed p.source.chars pre = true → b.start = a.stop →
        (b ∈ p.source.comments ↔ closedAt p.source.chars a = true) := by
  obtain ⟨-, hparse⟩ := parseSource_of_parse h
  obtain ⟨t, ht, hu⟩ := exists_derivation hparse
  refine ⟨t, ht, hu, fun hlit => ?_, fun pre a b post hlex hpre hab => ?_⟩
  · have htable := comments_of_closed ht hlit
    exact ⟨htable, htable ▸ apart_of_derivation ht⟩
  · exact mem_comments_iff_closed ht hlex hpre hab

theorem exists_parsed {name text : String} (h : (parse name text).toOption.isSome = true) :
    ∃ p, parse name text = .ok p := by
  cases hp : parse name text with
  | error f => simp [hp, Except.toOption] at h
  | ok p => exact ⟨p, rfl⟩

def closedText : String := "class A\x7bString s=\x22//\x22+\x27\\\x27\x27/1;//\n\x7d"

theorem comments_eq_of_parse_sample : ∃ p t, parse "A.java" closedText = .ok p ∧
    derivation? p.source = some t ∧
    literalsClosed p.source.chars (Rule.grammar.lexemes t) = true ∧
    p.source.comments = (Rule.grammar.lexemes t).filterMap Lexeme.comment? := by
  have hclosed : (derivation? (Source.ofString "A.java" closedText)).all (fun t =>
      literalsClosed closedText.toList (Rule.grammar.lexemes t)) = true := by decide +kernel
  obtain ⟨p, h⟩ : ∃ p, parse "A.java" closedText = .ok p := exists_parsed (by decide +kernel)
  obtain ⟨t, ht, -, htable, -⟩ := comments_eq_of_parse h
  have hlit : literalsClosed p.source.chars (Rule.grammar.lexemes t) = true := by
    rw [(parseSource_of_parse h).1] at ht ⊢
    rw [ht] at hclosed
    exact hclosed
  exact ⟨p, t, h, ht, hlit, (htable hlit).1⟩

/-- A backslash before the last apostrophe of a literal, and a comment behind it. -/
def openText : String := "class A\x7bchar c=\x27\\a\\\x27;//\n\x7d"

/-- The comment behind a literal that is not closed is missing from the table. -/
theorem comments_ne_of_open : ∃ p t, parse "A.java" openText = .ok p ∧
    derivation? p.source = some t ∧
    p.source.comments ≠ (Rule.grammar.lexemes t).filterMap Lexeme.comment? := by
  have hne : (derivation? (Source.ofString "A.java" openText)).all (fun t =>
      comments openText.toList != (Rule.grammar.lexemes t).filterMap Lexeme.comment?) = true := by
    decide +kernel
  obtain ⟨p, h⟩ : ∃ p, parse "A.java" openText = .ok p := exists_parsed (by decide +kernel)
  obtain ⟨hsource, hparse⟩ := parseSource_of_parse h
  obtain ⟨t, ht, -⟩ := exists_derivation hparse
  refine ⟨p, t, h, ht, ?_⟩
  rw [hsource] at ht ⊢
  rw [ht] at hne
  exact bne_iff_ne.1 hne

end Transcribe.Java
