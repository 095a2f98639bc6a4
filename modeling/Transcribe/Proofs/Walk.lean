/-
  Transcribe.Proofs.Walk — a match as a walk through the text, in step with the table of comments.

  The table is made by one pass over the text that knows quotes and comments only; the grammar
  finds its comments in the gaps between tokens. A match goes from lexeme to lexeme, and over
  every lexeme but a character literal the pass goes from code to code without an entry. Checks
  on the expressions of the grammar say why: no token but a literal holds a quote, and no slash
  is followed by anything that could make a comment of it.

  Text is calm if the pass goes over it wherever it stands. The operator `/` is not: with a star
  behind it, it would open a comment. So an expression is checked with or without a slash at its end
  (`level`), and where the first part of a sequence may end in one, the second must refuse a star.
  A slash behind it is no danger, since the grammar takes `//` for a gap. `InStep` is what a stretch
  of the walk keeps: from `c` to `d` the pass finds the comments among the lexemes there.
  - `Takes.each`: what is checked of the words of a token rule holds of what it matches.
  - `Takes.calm`: what a checked token rule matches is passed over.
  - `Takes.ne_star`: what is checked to refuse a star does not match before one.
  - `level_first`: so the first part of a sequence is in step with what follows it.
  - `walk_of_takes`: every match of the grammar is a walk.
-/

import Transcribe.Proofs.Literal

namespace Transcribe.Grammar

open Text (Span byteLength isQuote commentsFrom)

variable {ρ : Type} {g : Rules ρ} {m : Mode} {c d : Cursor} {ts : List (Derivation ρ)}

/-! ## Text without quotes and comments -/

/-- Text the pass goes over wherever it stands: no quote, and no slash that could begin a
comment with what follows. -/
def calm : List Char → Bool
  | [] => true
  | [c] => !isQuote c && c != '/'
  | c :: d :: cs => !isQuote c && (c != '/' || d != '/' && d != '*') && calm (d :: cs)

theorem calm_append {v w : List Char} (hv : calm v = true) (hw : calm w = true) :
    calm (v ++ w) = true := by
  fun_induction calm v with
  | case1 => exact hw
  | case2 c =>
    cases w with
    | nil => simpa [calm] using hv
    | cons d w => simp_all [calm]
  | case3 c d cs ih => simp_all [calm]

theorem commentsFrom_calm {w : List Char} (hw : calm w = true) (o : Nat) (rest : List Char) :
    commentsFrom .code o (w ++ rest) = commentsFrom .code (o + byteLength w) rest := by
  fun_induction calm w generalizing o with
  | case1 => rfl
  | case2 c =>
    simp only [Bool.and_eq_true, Bool.not_eq_true', bne_iff_ne] at hw
    rw [List.singleton_append, commentsFrom_code_cons hw.1 fun h => absurd h hw.2]
    rfl
  | case3 c d cs ih =>
    simp only [Bool.and_eq_true, Bool.or_eq_true, Bool.not_eq_true', bne_iff_ne] at hw
    obtain ⟨⟨hq, hslash⟩, hcs⟩ := hw
    have hnext : c = '/' →
        (d :: cs ++ rest).head? ≠ some '/' ∧ (d :: cs ++ rest).head? ≠ some '*' := by
      intro hc
      simpa [hc] using hslash
    rw [List.cons_append, commentsFrom_code_cons hq hnext, ih hcs, Text.byteLength_cons c,
      Nat.add_assoc]

namespace Peg

/-- Whether all text the expression can match as a token is calm. -/
def calm : Peg ρ → Bool
  | .word w => Grammar.calm w
  | .words ws => ws.all Grammar.calm
  | .one p => !p '/' && !p '\x22' && !p '\x27'
  | .startOfText | .endOfText | .ahead _ | .notAhead _ => true
  | .rule _ => false
  | .seq a b | .alt a b => a.calm && b.calm
  | .opt a | .many a => a.calm

end Peg

def Trial.peg : Trial ρ → Peg ρ
  | .once e | .further e => e

theorem ne_of_class {p : Char → Bool} {ch : Char} (h : p ch = true) :
    ∀ x, p x = false → ch ≠ x := by
  rintro x hx rfl
  rw [h] at hx
  cases hx

theorem calm_of_class {p : Char → Bool} (hp : (!p '/' && !p '\x22' && !p '\x27') = true) {ch : Char}
    (h : p ch = true) : calm [ch] = true := by
  simp only [Bool.and_eq_true, Bool.not_eq_true'] at hp
  have hne := ne_of_class h
  simp [calm, isQuote, hne _ hp.1.1, hne _ hp.1.2, hne _ hp.2]

def Peg.each (word : List Char → Bool) (letter : (Char → Bool) → Bool) : Peg ρ → Bool
  | .word w => word w
  | .words ws => ws.all word
  | .one p => letter p
  | .startOfText | .endOfText | .ahead _ | .notAhead _ => true
  | .rule _ => false
  | .seq a b | .alt a b => a.each word letter && b.each word letter
  | .opt a | .many a => a.each word letter

/-- What holds of words and letters, and of one text behind another, holds of what is matched. -/
theorem Takes.each {P : List Char → Prop} {word : List Char → Bool} {letter : (Char → Bool) → Bool}
    (hnil : P []) (happend : ∀ v w, P v → P w → P (v ++ w)) (hword : ∀ w, word w = true → P w)
    (hletter : ∀ p ch, letter p = true → p ch = true → P [ch]) {k : Trial ρ} (hm : m.token = true)
    (h : Takes g m k c ts d) (hk : k.peg.each word letter = true) : ∃ w, c.Reaches w d ∧ P w := by
  induction h with
  | word h => exact ⟨_, reaches_of_afterWord? h, hword _ hk⟩
  | words hw h => exact ⟨_, reaches_of_afterWord? h, hword _ (List.all_eq_true.1 hk _ hw)⟩
  | @one _ p _ ch _ h => exact ⟨[ch], ⟨rfl, rfl⟩, hletter p ch hk h⟩
  | startOfText | endOfText | absent | never | ahead | notAhead | done =>
    exact ⟨[], .refl _, hnil⟩
  | rule => cases hk
  | left _ ih => exact ih hm (Bool.and_eq_true_iff.1 hk).1
  | right _ _ ih => exact ih hm (Bool.and_eq_true_iff.1 hk).2
  | present _ ih => exact ih hm hk
  | seq _ _ ihx ihy =>
    rw [Mode.gap_of_token hm] at ihy
    obtain ⟨v, hv, hPv⟩ := ihx hm (Bool.and_eq_true_iff.1 hk).1
    obtain ⟨w, hw, hPw⟩ := ihy hm (Bool.and_eq_true_iff.1 hk).2
    exact ⟨v ++ w, hv.trans hw, happend v w hPv hPw⟩
  | many _ _ ihx ih =>
    obtain ⟨v, hv, hPv⟩ := ihx hm hk
    obtain ⟨w, hw, hPw⟩ := ih hm hk
    exact ⟨v ++ w, hv.trans hw, happend v w hPv hPw⟩
  | again _ _ ihx ih =>
    rw [Mode.gap_of_token hm] at ihx
    obtain ⟨v, hv, hPv⟩ := ihx hm hk
    obtain ⟨w, hw, hPw⟩ := ih hm hk
    exact ⟨v ++ w, hv.trans hw, happend v w hPv hPw⟩

theorem Peg.each_calm (e : Peg ρ) :
    e.each Grammar.calm (fun p => !p '/' && !p '\x22' && !p '\x27') = e.calm := by
  induction e <;> simp_all [each, calm]

theorem Takes.calm {k : Trial ρ} (hm : m.token = true) (h : Takes g m k c ts d)
    (hk : k.peg.calm = true) : ∃ w, c.Reaches w d ∧ Grammar.calm w = true :=
  h.each (P := fun w => Grammar.calm w = true) rfl (fun _ _ => calm_append) (fun _ hw => hw)
    (fun _ _ hp => calm_of_class hp) hm (by rw [Peg.each_calm, hk])

/-! ## Stars -/

namespace Peg

def still : Peg ρ → Bool
  | .startOfText | .ahead _ | .notAhead _ => true
  | _ => false

/-- Whether the expression never matches before a star; looks into `n` nested expressions. -/
def refusesStar (g : Rules ρ) : Nat → Peg ρ → Bool
  | 0, _ => false
  | n + 1, e =>
    match e with
    | .word w => w.head?.any (· != '*')
    | .words ws => ws.all fun w => w.head?.any (· != '*')
    | .one p => !p '*'
    | .rule r => refusesStar g n (g.body r)
    | .seq x y => refusesStar g n x || x.still && refusesStar g n y
    | .alt x y => refusesStar g n x && refusesStar g n y
    | _ => false

end Peg

/-- No gap begins at a star. -/
theorem Mode.gap_star (m : Mode) {rest : List Char} (hc : c.rest = '*' :: rest) :
    (m.gap c).2 = c := by
  obtain ⟨o, cs⟩ := c
  subst hc
  cases hm : m.token with
  | true => rw [Mode.gap_of_token hm]
  | false => rw [Mode.gap_of_tree hm]; rfl

theorem head_ne_of_word {w rest rest' : List Char} (hw : w.head?.any (· != '*') = true)
    (h : afterWord? w c.rest = some rest) : c.rest ≠ '*' :: rest' := by
  rw [eq_append_of_afterWord? h]
  cases w with
  | nil => cases hw
  | cons ch w =>
    rintro ⟨⟩
    simp at hw

theorem Takes.ne_star {n : Nat} {e : Peg ρ} (he : e.refusesStar g n = true)
    (h : Takes g m (.once e) c ts d) (rest : List Char) : c.rest ≠ '*' :: rest := by
  induction n generalizing e m c ts d with
  | zero => cases he
  | succ n ih =>
    cases h with
    | word h => exact head_ne_of_word he h
    | words hw h => exact head_ne_of_word (List.all_eq_true.1 he _ hw) h
    | one h =>
      rintro ⟨⟩
      simp [Peg.refusesStar, h] at he
    | rule h => exact ih he h
    | left h => exact ih (Bool.and_eq_true_iff.1 he).1 h
    | right _ h => exact ih (Bool.and_eq_true_iff.1 he).2 h
    | @seq _ x _ _ _ _ _ _ hx hy =>
      rcases Bool.or_eq_true_iff.1 he with he | he
      · exact ih he hx
      · obtain ⟨hstill, he⟩ := Bool.and_eq_true_iff.1 he
        intro hc
        have hback : (m.gap c).2 = c := m.gap_star hc
        cases x with
        | startOfText | ahead | notAhead =>
          cases hx
          rw [hback] at hy
          exact ih he hy hc
        | _ => cases hstill
    | startOfText | endOfText | absent | present | never | many | ahead | notAhead => cases he

theorem Takes.head?_ne_star {n : Nat} {e : Peg ρ} (he : e.refusesStar g n = true)
    (h : Takes g m (.once e) (m.gap c).2 ts d) : c.rest.head? ≠ some '*' := by
  intro hstar
  obtain ⟨rest, hrest⟩ := List.head?_eq_some_iff.1 hstar
  rw [m.gap_star hrest] at h
  exact h.ne_star he rest hrest

end Transcribe.Grammar

namespace Transcribe.Java

open Grammar
open Text (Span commentsFrom)

variable {c d : Cursor} {m : Mode}

/-! ## The grammar -/

def passes (slash : Bool) : Rule → Bool
  | .charLiteral | .stringLiteral => true
  | .infixOperator .divide => slash
  | r => r.body.calm

def depth : Nat := 30

/-- Whether the pass is in step with every match of an expression; with `slash`, if no star
follows it. -/
def level (slash : Bool) : Peg Rule → Bool
  | .word w => calm w
  | .words ws => ws.all calm
  | .one p => (Peg.one p : Peg Rule).calm
  | .startOfText | .endOfText | .ahead _ | .notAhead _ => true
  | .rule r => r.kind == .tree || passes slash r
  | .seq x y => level slash y && (level false x || level true x && y.refusesStar Rule.grammar depth)
  | .alt x y => level slash x && level slash y
  | .opt x => level slash x
  | .many x => level false x

/-- The first of two parts is in step with what follows it: where it may end in a slash, the second
does not begin with a star. -/
theorem level_first {x y : Peg Rule} {slash : Bool} {ts : List (Derivation Rule)}
    (hk : level slash (.seq x y) = true) (hy : Takes Rule.grammar m (.once y) (m.gap c).2 ts d) :
    ∃ slash', level slash' x = true ∧ (slash' = true → c.rest.head? ≠ some '*') := by
  rcases Bool.or_eq_true_iff.1 (Bool.and_eq_true_iff.1 hk).2 with hx | hx
  · exact ⟨false, hx, by simp⟩
  · obtain ⟨hx, hrefuse⟩ := Bool.and_eq_true_iff.1 hx
    exact ⟨true, hx, fun _ => hy.head?_ne_star hrefuse⟩

theorem level_body {r : Rule} (hr : r.kind = .tree) : level false r.body = true := by
  have hall : ∀ r ∈ Rule.all, r.kind = .tree → level false r.body = true := by decide +kernel
  exact hall r r.mem_all hr

/-! ## In step -/

def InStep (c : Cursor) (ls : List (Lexeme Rule)) (d : Cursor) : Prop :=
  commentsFrom .code c.offset c.rest
    = ls.filterMap Lexeme.comment? ++ commentsFrom .code d.offset d.rest

theorem InStep.refl (c : Cursor) : InStep c [] c := rfl

theorem InStep.append {e : Cursor} {ks ls : List (Lexeme Rule)} (h : InStep c ks d)
    (h' : InStep d ls e) : InStep c (ks ++ ls) e := by
  unfold InStep at *
  rw [h, h', List.filterMap_append, List.append_assoc]

theorem inStep_gap (c : Cursor) : InStep c ((gap c).1.map .comment) (gap c).2 := by
  have hspans : ∀ ss : List Span,
      (ss.map (Lexeme.comment : Span → Lexeme Rule)).filterMap Lexeme.comment? = ss := by
    intro ss
    rw [List.filterMap_map]
    exact List.filterMap_some
  unfold InStep
  rw [hspans]
  exact (gapTo_gap c).inStep

theorem inStep_calm {w : List Char} (hw : calm w = true) (h : c.Reaches w d) :
    InStep c [] d := by
  unfold InStep
  rw [h.rest_eq, h.offset_eq, commentsFrom_calm hw]
  rfl

theorem body_divide : Rule.grammar.body (.infixOperator .divide) =
    .seq (.word ['/']) (.notAhead (.words [['=']])) := rfl

/-- A slash that neither a slash nor a star follows is no comment. -/
theorem inStep_divide {ts : List (Derivation Rule)} (hm : m.token = true) (hc : gap c = ([], c))
    (hstar : d.rest.head? ≠ some '*')
    (h : Takes Rule.grammar m (.once (Rule.grammar.body (.infixOperator .divide))) c ts d) :
    InStep c [] d := by
  rw [body_divide] at h
  obtain ⟨_, mid, _, hword, hahead⟩ := h.of_seq hm
  obtain ⟨rfl, -⟩ := hahead.of_notAhead
  have hword := hword.of_word
  have hslash : d.rest.head? ≠ some '/' := by
    intro hd
    obtain ⟨rest, hrest⟩ := List.head?_eq_some_iff.1 hd
    have hline : gap c = gapFrom (.line c.offset) (c.offset + 2) rest := by
      rw [gap, hword.rest_eq, hrest]
      rfl
    refine gapFrom_line_ne_nil c.offset (c.offset + 2) rest ?_
    rw [← hline, hc]
  unfold InStep
  rw [hword.rest_eq, hword.offset_eq, List.singleton_append,
    commentsFrom_code_cons rfl fun _ => ⟨hslash, hstar⟩]
  rfl

/-- A token other than a character literal is in step. -/
theorem inStep_token {r : Rule} {slash : Bool} {ts : List (Derivation Rule)} (hm : m.token = true)
    (hr : passes slash r = true) (hne : r ≠ .charLiteral) (hc : gap c = ([], c))
    (hstar : slash = true → d.rest.head? ≠ some '*')
    (h : Takes Rule.grammar m (.once (Rule.grammar.body r)) c ts d) : InStep c [] d := by
  unfold passes at hr
  split at hr
  · exact absurd rfl hne
  · exact stringLiteral_inStep hm h
  · exact inStep_divide hm hc (hstar hr) h
  · obtain ⟨w, hw, hcalm⟩ := h.calm hm hr
    exact inStep_calm hcalm hw

/-! ## Walks -/

/-- A way through the text from lexeme to lexeme. Gaps are passed on the way, and so is, in step,
every lexeme but a character literal. -/
inductive Walk : Cursor → List (Lexeme Rule) → Cursor → Prop where
  | done {c : Cursor} : Walk c [] c
  | skip {c d : Cursor} {ls : List (Lexeme Rule)} (rest : Walk (gap c).2 ls d) :
      Walk c ((gap c).1.map .comment ++ ls) d
  | solid {c mid d : Cursor} {l : Lexeme Rule} {ls : List (Lexeme Rule)} (hl : l.comment? = none)
      (hne : ∀ s, l ≠ .token .charLiteral s) (hspan : l.span = ⟨c.offset, mid.offset⟩)
      (hreach : ∃ w, c.Reaches w mid) (hstep : InStep c [] mid) (rest : Walk mid ls d) :
      Walk c (l :: ls) d
  | literal {m : Mode} {c mid d : Cursor} {parts : List (Derivation Rule)}
      {ls : List (Lexeme Rule)} (hm : m.token = true)
      (h : Takes Rule.grammar m (.once (Rule.grammar.body .charLiteral)) c parts mid)
      (rest : Walk mid ls d) : Walk c (.token .charLiteral ⟨c.offset, mid.offset⟩ :: ls) d

namespace Walk

variable {c d e : Cursor} {ks ls : List (Lexeme Rule)}

theorem append (h : Walk c ks d) (h' : Walk d ls e) : Walk c (ks ++ ls) e := by
  induction h with
  | done => exact h'
  | skip _ ih =>
    rw [List.append_assoc]
    exact .skip (ih h')
  | solid hl hne hspan hreach hstep _ ih => exact .solid hl hne hspan hreach hstep (ih h')
  | literal hm h _ ih => exact .literal hm h (ih h')

theorem ofGap (hm : m.token = false) (c : Cursor) :
    Walk c (Rule.grammar.lexemesAll (m.gapLeaves c)) (m.gap c).2 := by
  rw [Mode.gapLeaves, Rules.lexemesAll_comments, Mode.gap_of_tree hm]
  simpa using Walk.skip (c := c) .done

theorem ofLeaf {s : Span} {w : List Char} (hm : m.token = false) (hw : calm w = true)
    (h : c.Reaches w d) (hs : s = ⟨c.offset, d.offset⟩) :
    Walk c (Rule.grammar.lexemesAll (m.leaf s)) d := by
  have hleaf : Rule.grammar.lexemesAll (m.leaf s) = [.word s] := by
    simp [Mode.leaf, hm, Rules.lexemesAll, Rules.lexemes]
  rw [hleaf]
  exact .solid rfl (fun _ h => by cases h) hs ⟨w, h⟩ (inStep_calm hw h) .done

theorem reaches (h : Walk c ls d) : ∃ w, c.Reaches w d := by
  induction h with
  | done => exact ⟨[], .refl _⟩
  | @skip c _ _ _ ih =>
    obtain ⟨v, hv⟩ := (gapTo_gap c).reaches
    obtain ⟨w, hw⟩ := ih
    exact ⟨v ++ w, hv.trans hw⟩
  | solid _ _ _ hreach _ _ ih =>
    obtain ⟨v, hv⟩ := hreach
    obtain ⟨w, hw⟩ := ih
    exact ⟨v ++ w, hv.trans hw⟩
  | literal _ h _ ih =>
    obtain ⟨v, hv⟩ := h.reaches
    obtain ⟨w, hw⟩ := ih
    exact ⟨v ++ w, hv.trans hw⟩

end Walk

def trialLevel (slash : Bool) : Trial Rule → Bool
  | .once e => level slash e
  | .further e => level false e

/-- Every match of the grammar is a walk. -/
theorem walk_of_takes {k : Trial Rule} {slash : Bool} {ts : List (Derivation Rule)}
    (hm : m.token = false) (h : Takes Rule.grammar m k c ts d) (hk : trialLevel slash k = true)
    (hfix : ∀ e, k = .once e → gap c = ([], c)) (hstar : slash = true → d.rest.head? ≠ some '*') :
    Walk c (Rule.grammar.lexemesAll ts) d := by
  induction h generalizing slash with
  | word h => exact .ofLeaf hm hk (reaches_of_afterWord? h) rfl
  | words hw h => exact .ofLeaf hm (List.all_eq_true.1 hk _ hw) (reaches_of_afterWord? h) rfl
  | one h => exact .ofLeaf hm (calm_of_class hk h) ⟨rfl, rfl⟩ rfl
  | startOfText | endOfText | absent | never | ahead | notAhead | done => exact .done
  | @rule m r c parts d h ih =>
    rw [if_neg (by simp [hm])]
    -- A token is one lexeme; any other rule has the lexemes of its parts.
    by_cases hr : r.kind = .token
    · have hlex : Rule.grammar.lexemesAll [.node r ⟨c.offset, d.offset⟩ parts]
          = [.token r ⟨c.offset, d.offset⟩] := by
        simp [Rules.lexemesAll, Rules.lexemes, Rule.grammar, hr]
      have hpasses : passes slash r = true := by
        simpa [trialLevel, level, hr] using hk
      have hinner : (Rule.grammar.inner r m).token = true := by
        simp [Rules.inner, Rule.grammar, hr]
      rw [hlex]
      by_cases hchar : r = .charLiteral
      · subst hchar
        exact .literal hinner h .done
      · exact .solid rfl (fun _ h => hchar (Lexeme.token.inj h).1) rfl h.reaches
          (inStep_token hinner hpasses hchar (hfix _ rfl) hstar h) .done
    · have hlex : Rule.grammar.lexemesAll [.node r ⟨c.offset, d.offset⟩ parts]
          = Rule.grammar.lexemesAll parts := by
        simp [Rules.lexemesAll, Rules.lexemes, Rule.grammar, hr]
      have htree : r.kind = .tree := by
        cases hkind : r.kind with
        | tree => rfl
        | token => exact absurd hkind hr
      have hinner : Rule.grammar.inner r m = m := by
        simp [Rules.inner, Rule.grammar, hr]
      rw [hlex]
      exact ih (by rw [hinner, hm]) (level_body htree) (fun _ _ => hfix _ rfl) (by simp)
  | left _ ih => exact ih hm (Bool.and_eq_true_iff.1 hk).1 (fun _ _ => hfix _ rfl) hstar
  | right _ _ ih => exact ih hm (Bool.and_eq_true_iff.1 hk).2 (fun _ _ => hfix _ rfl) hstar
  | present _ ih => exact ih hm hk (fun _ _ => hfix _ rfl) hstar
  | @seq m x y c before mid behind d hx hy ihx ihy =>
    obtain ⟨slash', hx', hmid⟩ := level_first hk hy
    simp only [Rules.lexemesAll_append]
    have hbefore : Walk c (Rule.grammar.lexemesAll before) mid :=
      ihx hm hx' (fun _ _ => hfix _ rfl) hmid
    have hgap : gap (m.gap mid).2 = ([], (m.gap mid).2) := by
      rw [Mode.gap_of_tree hm]
      exact (gapTo_gap mid).gap_eq
    have hbehind := ihy hm (Bool.and_eq_true_iff.1 hk).1 (fun _ _ => hgap) hstar
    exact (hbefore.append (.ofGap hm mid)).append hbehind
  | @many m x c first mid others d hx h ihx ih =>
    simp only [Rules.lexemesAll_append]
    exact (ihx hm hk (fun _ _ => hfix _ rfl) (by simp)).append
      (ih hm hk (fun _ h => by cases h) hstar)
  | @again m x c trees mid others d hx h ihx ih =>
    simp only [Rules.lexemesAll_append]
    have hgap : gap (m.gap c).2 = ([], (m.gap c).2) := by
      rw [Mode.gap_of_tree hm]
      exact (gapTo_gap c).gap_eq
    exact ((Walk.ofGap hm c).append (ihx hm hk (fun _ _ => hgap) (by simp))).append
      (ih hm hk (fun _ h => by cases h) hstar)

end Transcribe.Java
