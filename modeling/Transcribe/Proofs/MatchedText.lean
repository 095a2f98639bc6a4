/-
  Transcribe.Proofs.MatchedText — how the words and nodes of a match lie in the text.

  A match is retold a second time, without cursors: the words and nodes it is made of stand in the
  order its expression gives them, each from the first byte of its first token to the last byte of
  its last, with only space and comments between one and the next. What the pieces of a node are
  follows from its text alone or from the pieces of these parts.

  An `Item` is such a word or node with its pieces, and items are `Linked` from one place to another
  if only space and comments stand between them. A node spans its items (`hull`), so its span is the
  one cut off for it. This takes expressions whose words are without space (`firm`) and nodes that
  have at least one item (`yields`), which is checked on the grammar. A match is followed together
  with what surrounds it (`Scene`): its lexemes, the comments the table has there, and its pieces.
  - `Forms`: which words and nodes an expression can be made of.
  - `Spells`: the spellings of a token rule.
  - `Grown`: a word or node with its parts, down to the tokens.
  - `grown_of_takes`: every match of the grammar is made of these.
-/

import Transcribe.Proofs.Comment
import Transcribe.Proofs.TokenEnds

namespace Transcribe.Java

open Grammar
open Text (Span Source byteLength isSpace)

variable {m : Mode} {c d : Cursor} {ts : List (Derivation Rule)} {r : Rule} {slash : Bool}
  {s : Source} {ps : List Piece}

/-! ## Tokens -/

theorem Takes.nil_of_token {k : Trial Rule} (hm : m.token = true)
    (h : Takes Rule.grammar m k c ts d) :
    ts = [] := by
  have hgap : ∀ c, (m.gapLeaves c : List (Derivation Rule)) = [] := by simp [Mode.gapLeaves, hm]
  induction h with
  | word | words | one => simp [Mode.leaf, hm]
  | startOfText | endOfText | absent | never | ahead | notAhead | done => rfl
  | rule => simp [hm]
  | left _ ih | right _ _ ih | present _ ih => exact ih hm hgap
  | seq _ _ ihx ihy => simp [ihx hm hgap, ihy hm hgap, hgap]
  | many _ _ ihx ih => simp [ihx hm hgap, ih hm hgap]
  | again _ _ ihx ih => simp [ihx hm hgap, ih hm hgap, hgap]

def Spells (r : Rule) (w : List Char) : Prop :=
  ∃ m c parts d, m.token = true ∧ c.Reaches w d ∧
    Takes Rule.grammar m (.once (Rule.grammar.body r)) c parts d

theorem dense_body (hr : r.kind = .token) :
    r = .charLiteral ∨ r = .stringLiteral ∨ r.body.dense = true ∧
      r.body.eats (fun _ => false) = true := by
  have hall : ∀ r ∈ Rule.all, r.kind = .token →
      r = .charLiteral ∨ r = .stringLiteral ∨ r.body.dense = true ∧
        r.body.eats (fun _ => false) = true := by
    decide +kernel
  exact hall r r.mem_all hr

/-- A quoted literal begins and ends with its quote. -/
theorem quoted_of_takes {q : Char} {x : Peg Rule} (hm : m.token = true)
    (h : Takes Rule.grammar m (.once (.seq (.word [q]) (.seq x (.word [q])))) c ts d) :
    ∃ v, c.Reaches (q :: v ++ [q]) d := by
  obtain ⟨_, c₁, _, hopen, hrest⟩ := h.of_seq hm
  obtain ⟨_, c₂, _, hinner, hclose⟩ := hrest.of_seq hm
  obtain ⟨v, hv⟩ := hinner.reaches
  exact ⟨v, (hopen.of_word.trans hv).trans hclose.of_word⟩

/-- A token begins and ends with characters that are no space. -/
theorem token_edges (hm : m.token = true) (hr : r.kind = .token)
    (h : Takes Rule.grammar m (.once (Rule.grammar.body r)) c ts d) :
    ∃ w f t v l, c.Reaches w d ∧ w = f :: t ∧ isSpace f = false ∧ w = v ++ [l] ∧
      isSpace l = false := by
  have hquoted : ∀ {q v}, isSpace q = false → c.Reaches (q :: v ++ [q]) d →
      ∃ w f t v l, c.Reaches w d ∧ w = f :: t ∧ isSpace f = false ∧ w = v ++ [l] ∧
        isSpace l = false :=
    fun {q v} hq hv => ⟨_, q, v ++ [q], q :: v, q, hv, rfl, hq, rfl, hq⟩
  rcases dense_body hr with rfl | rfl | ⟨hdense, heats⟩
  · rw [body_charLiteral] at h
    obtain ⟨v, hv⟩ := quoted_of_takes hm h
    exact hquoted rfl hv
  · rw [body_stringLiteral] at h
    obtain ⟨v, hv⟩ := quoted_of_takes hm h
    exact hquoted rfl hv
  · obtain ⟨w, hw, hspace⟩ := h.dense hm hdense
    have hlt := h.lt_of_eats nofun heats
    have hne : w ≠ [] := by
      rintro rfl
      rw [hw.offset_eq] at hlt
      simp at hlt
    obtain ⟨f, t, hhead⟩ := List.exists_cons_of_ne_nil hne
    exact ⟨w, f, t, w.dropLast, w.getLast hne, hw, hhead, hspace f (by simp [hhead]),
      (List.dropLast_concat_getLast hne).symm, hspace _ (List.getLast_mem hne)⟩

/-- A walk over space stays at a token that the pass goes over. -/
theorem spaceLength_token (hm : m.token = true) (hr : r.kind = .token)
    (hpass : passes slash r = true) (hc : gap c = ([], c))
    (hstar : slash = true → d.rest.head? ≠ some '*')
    (h : Takes Rule.grammar m (.once (Rule.grammar.body r)) c ts d) :
    Text.spaceLength false .space c.rest = 0 := by
  obtain ⟨w, f, t, -, -, hw, hhead, hf, -⟩ := token_edges hm hr h
  rw [hw.rest_eq, hhead, List.cons_append]
  refine Text.spaceLength_eq_zero hf ?_
  rintro rfl
  unfold passes at hpass
  split at hpass
  · rw [body_charLiteral] at h
    obtain ⟨v, hv⟩ := quoted_of_takes hm h
    have := hv.rest_eq
    rw [hw.rest_eq, hhead] at this
    cases this
  · rw [body_stringLiteral] at h
    obtain ⟨v, hv⟩ := quoted_of_takes hm h
    have := hv.rest_eq
    rw [hw.rest_eq, hhead] at this
    cases this
  · rw [body_divide] at h
    obtain ⟨_, mid, _, hword, hahead⟩ := h.of_seq hm
    obtain ⟨rfl, -⟩ := hahead.of_notAhead
    have hrest : t ++ d.rest = d.rest := by
      have := hword.of_word.rest_eq
      rw [hw.rest_eq, hhead] at this
      exact (List.cons.inj this).2
    rw [hrest]
    refine ⟨fun hd => ?_, hstar hpass⟩
    obtain ⟨rest, hcons⟩ := List.head?_eq_some_iff.1 hd
    have hline : gap c = gapFrom (.line c.offset) (c.offset + 2) rest := by
      rw [gap, hword.of_word.rest_eq, hcons]
      rfl
    refine gapFrom_line_ne_nil c.offset (c.offset + 2) rest ?_
    rw [← hline, hc]
  · obtain ⟨w', hw', hcalm⟩ := h.calm hm hpass
    have hsame : w' = '/' :: t := by
      have := hw'.rest_eq
      rw [hw.rest_eq, hhead] at this
      exact (List.append_cancel_right this).symm
    rw [hsame] at hcalm
    cases t with
    | nil => simp [calm] at hcalm
    | cons e t => simp_all [calm]

theorem solid_token {before behind : List Span} (hm : m.token = true) (hr : r.kind = .token)
    (hpass : passes slash r = true) (hc : gap c = ([], c))
    (hstar : slash = true → d.rest.head? ≠ some '*') (hon : c.On s)
    (hsplit : Split s c.offset before [] behind d.offset)
    (h : Takes Rule.grammar m (.once (Rule.grammar.body r)) c ts d) :
    s.Solid ⟨c.offset, d.offset⟩ := by
  have hzero := spaceLength_token hm hr hpass hc hstar h
  obtain ⟨w, f, t, v, l, hw, hhead, -, hlast, hl⟩ := token_edges hm hr h
  have hlt : c.offset < d.offset := by
    have := f.utf8Size_pos
    have := hw.offset_eq
    rw [hhead, Text.byteLength_cons] at this
    omega
  have hnone := hsplit.stop_ne hlt
  rw [hw.offset_eq] at hnone ⊢
  unfold Cursor.On at hon
  rw [hw.rest_eq] at hon hzero
  exact Source.solid_of_text hon hzero hlast hl hnone

/-! ## Parts -/

/-- A word or node of a derivation: its span without the space and comments at its ends, and its
pieces of syntax. -/
structure Item where
  tree : Derivation Rule
  span : Span
  pieces : List Piece

variable {is : List Item}

def piecesFor (r : Rule) (span : Span) (text : List Char) (ps : List Piece) :
    Option (List Piece) :=
  if Piece.isPlainWord r then some [] else (Piece.assemble? r span text ps).map ([·])

inductive Forms : Peg Rule → List Item → Prop where
  | word {w : List Char} {sp : Span} : Forms (.word w) [⟨.word sp, sp, []⟩]
  | words {ws : List (List Char)} {sp : Span} : Forms (.words ws) [⟨.word sp, sp, []⟩]
  | rule {r : Rule} {raw sp : Span} {parts : List (Derivation Rule)} {ps : List Piece} :
      Forms (.rule r) [⟨.node r raw parts, sp, ps⟩]
  | seq {x y : Peg Rule} {is js : List Item} (hx : Forms x is) (hy : Forms y js) :
      Forms (.seq x y) (is ++ js)
  | left {x y : Peg Rule} {is : List Item} (h : Forms x is) : Forms (.alt x y) is
  | right {x y : Peg Rule} {is : List Item} (h : Forms y is) : Forms (.alt x y) is
  | absent {x : Peg Rule} : Forms (.opt x) []
  | present {x : Peg Rule} {is : List Item} (h : Forms x is) : Forms (.opt x) is
  | never {x : Peg Rule} : Forms (.many x) []
  | many {x : Peg Rule} {is js : List Item} (hx : Forms x is) (h : Forms (.many x) js) :
      Forms (.many x) (is ++ js)
  | ahead {x : Peg Rule} : Forms (.ahead x) []
  | notAhead {x : Peg Rule} : Forms (.notAhead x) []

def yields : Peg Rule → Bool
  | .word _ | .words _ | .rule _ => true
  | .seq a b => yields a || yields b
  | .alt a b => yields a && yields b
  | _ => false

theorem Forms.ne_nil {e : Peg Rule} (h : Forms e is) (he : yields e = true) :
    is ≠ [] := by
  induction h with
  | word | words | rule => simp
  | @seq x y is js _ _ ihx ihy =>
    rcases Bool.or_eq_true_iff.1 he with he | he
    · simp [ihx he]
    · simp [ihy he]
  | left _ ih => exact ih (Bool.and_eq_true_iff.1 he).1
  | right _ ih => exact ih (Bool.and_eq_true_iff.1 he).2
  | absent | present | never | many | ahead | notAhead => cases he

def Linked (s : Source) : Nat → List Item → Nat → Prop
  | o, [], d => s.Spaced o d
  | o, i :: is, d => s.Spaced o i.span.start ∧ s.Solid i.span ∧ Linked s i.span.stop is d

namespace Linked

variable {s : Source} {o mid d : Nat} {is js : List Item}

theorem of_spaced (hs : s.Spaced o mid) (h : Linked s mid is d) : Linked s o is d := by
  cases is with
  | nil => exact hs.trans h
  | cons i is => exact ⟨hs.trans h.1, h.2⟩

theorem append (h : Linked s o is mid) (h' : Linked s mid js d) : Linked s o (is ++ js) d := by
  induction is generalizing o with
  | nil => exact of_spaced h h'
  | cons i is ih => exact ⟨h.1, h.2.1, ih h.2.2⟩

theorem singleton {sp : Span} (hs : s.Solid sp) {t : Derivation Rule} :
    Linked s sp.start [⟨t, sp, ps⟩] sp.stop :=
  ⟨.refl hs.left, hs, .refl hs.right⟩

theorem solid (h : Linked s o is d) {i : Item} (hi : i ∈ is) : s.Solid i.span := by
  induction is generalizing o with
  | nil => cases hi
  | cons j is ih =>
    rcases List.mem_cons.1 hi with rfl | hi
    · exact h.2.1
    · exact ih h.2.2 hi

theorem le (h : Linked s o is d) : o ≤ d := by
  induction is generalizing o with
  | nil => exact h.inGap.le
  | cons i is ih =>
    have := h.1.inGap.le
    have := h.2.1.lt
    have := ih h.2.2
    omega

end Linked

def hull : List Item → Span
  | [] => ⟨0, 0⟩
  | i :: is => ⟨i.span.start, ((i :: is).getLast (by simp)).span.stop⟩

theorem Linked.getLast {o d : Nat} (hne : is ≠ []) (h : Linked s o is d) :
    o < (is.getLast hne).span.stop ∧ s.Spaced (is.getLast hne).span.stop d := by
  induction is generalizing o with
  | nil => exact absurd rfl hne
  | cons i is ih =>
    obtain ⟨hgap, hsolid, hrest⟩ := h
    have hle := hgap.inGap.le
    have hlt := hsolid.lt
    cases is with
    | nil => exact ⟨Nat.lt_of_le_of_lt hle hlt, hrest⟩
    | cons j is =>
      obtain ⟨hlt', hlast⟩ := ih (by simp) hrest
      rw [List.getLast_cons (by simp)]
      exact ⟨by omega, hlast⟩

/-- Linked items make a solid span, and trimming what they stand in gives it. -/
theorem Linked.hull {o d : Nat} (h : Linked s o is d) (hne : is ≠ []) :
    s.Solid (hull is) ∧ trim s ⟨o, d⟩ = hull is := by
  cases is with
  | nil => exact absurd rfl hne
  | cons i is =>
    obtain ⟨-, hspaced⟩ := h.getLast hne
    have hlast := h.solid (List.getLast_mem hne)
    obtain ⟨hgap, hsolid, hrest⟩ := h
    have hself : Linked s i.span.start (i :: is) d := ⟨.refl hsolid.left, hsolid, hrest⟩
    obtain ⟨hlt, -⟩ := hself.getLast hne
    refine ⟨hsolid.hull hlast hlt, ?_⟩
    have hle := hspaced.inGap.le
    have hskip : s.skipSpace false o = i.span.start := by
      rw [← Source.skipSpace_eq_of_inGap hgap.inGap, hsolid.start]
    simp only [trim, hskip, hspaced.back.trans hlast.stop, Java.hull]
    rw [Nat.min_eq_left (by omega), Nat.max_eq_left (by omega)]

/-- Linked items as one. -/
theorem Linked.collapse {o d : Nat} (h : Linked s o is d) (hne : is ≠ []) (t : Derivation Rule)
    (ps : List Piece) :
    Linked s o [⟨t, Java.hull is, ps⟩] d := by
  obtain ⟨-, hlast⟩ := h.getLast hne
  have hsolid := (h.hull hne).1
  cases is with
  | nil => exact absurd rfl hne
  | cons i is => exact ⟨h.1, hsolid, hlast⟩

/-- A word or node that stands in a text, with its parts: a token has text of its own, any other
node the items its rule is made of. The lexemes are among `ls`. -/
inductive Grown (s : Source) (ls : List (Lexeme Rule)) : Item → Prop where
  | word {sp : Span} (hlex : .word sp ∈ ls) (hsolid : s.Solid sp) : Grown s ls ⟨.word sp, sp, []⟩
  | token {r : Rule} {sp : Span} {w : List Char} {ps : List Piece} (hkind : r.kind = .token)
      (hlex : .token r sp ∈ ls) (hsolid : s.Solid sp) (htext : s.slice? sp = some w)
      (hspells : Spells r w) (hps : piecesFor r sp w [] = some ps) :
      Grown s ls ⟨.node r sp [], sp, ps⟩
  | tree {r : Rule} {raw : Span} {parts : List (Derivation Rule)} {text : List Char}
      {ps : List Piece} {items : List Item} (hkind : r.kind = .tree)
      (hforms : Forms r.body items) (hlinked : Linked s raw.start items raw.stop)
      (hne : items ≠ []) (hparts : ∀ i ∈ items, Grown s ls i)
      (htext : (if Piece.readsText r then s.slice? raw else some []) = some text)
      (hps : piecesFor r (hull items) text (items.flatMap (·.pieces)) = some ps) :
      Grown s ls ⟨.node r raw parts, hull items, ps⟩

/-! ## Every match -/

def firm : Peg Rule → Bool
  | .word w => !w.isEmpty && w.all (!isSpace ·)
  | .words ws => ws.all fun w => !w.isEmpty && w.all (!isSpace ·)
  | .one _ | .startOfText | .endOfText => false
  | .rule r => r != .endOfInput && r != .compilationUnit
  | .seq a b | .alt a b => firm a && firm b
  | .opt a | .many a => firm a
  | .ahead _ | .notAhead _ => true

theorem firm_body (hr : r.kind = .tree) (hend : r ≠ .endOfInput) (hunit : r ≠ .compilationUnit) :
    firm r.body = true ∧ yields r.body = true := by
  have hall : ∀ r ∈ Rule.all, r.kind = .tree → r ≠ .endOfInput → r ≠ .compilationUnit →
      firm r.body = true ∧ yields r.body = true := by decide
  exact hall r r.mem_all hr hend hunit

def Trial.Forms : Trial Rule → List Item → Prop
  | .once e, is => Java.Forms e is
  | .further e, is => Java.Forms (.many e) is

theorem piecesOfAll_append {us : List (Derivation Rule)} (h : piecesOfAll s (ts ++ us) = some ps) :
    ∃ qs rs, piecesOfAll s ts = some qs ∧ piecesOfAll s us = some rs ∧ ps = qs ++ rs := by
  induction ts generalizing ps with
  | nil => exact ⟨[], ps, by simp [piecesOfAll], h, rfl⟩
  | cons t ts ih =>
    rw [List.cons_append, piecesOfAll] at h
    split at h
    · rename_i qs rs hqs hrs
      obtain ⟨qs', rs', hqs', hrs', rfl⟩ := ih hrs
      exact ⟨qs ++ qs', rs', by simp [piecesOfAll, hqs, hqs'], hrs', by simpa using h.symm⟩
    · cases h

theorem piecesOfAll_comments (s : Source) (ss : List Span) :
    piecesOfAll s (ss.map .comment) = some [] := by
  induction ss with
  | nil => simp [piecesOfAll]
  | cons x ss ih => simp [piecesOfAll, piecesOf, ih]

abbrev commentsOf (ls : List (Lexeme Rule)) : List Span := ls.filterMap Lexeme.comment?

theorem commentsOf_gapLeaves (m : Mode) (c : Cursor) :
    commentsOf (Rule.grammar.lexemesAll (m.gapLeaves c)) = (m.gap c).1 := by
  rw [commentsOf, Mode.gapLeaves, Rules.lexemesAll_comments, List.filterMap_map]
  exact List.filterMap_some

@[simp] theorem commentsOf_append (ks ls : List (Lexeme Rule)) :
    commentsOf (ks ++ ls) = commentsOf ks ++ commentsOf ls :=
  List.filterMap_append

theorem inOrder_commentsOf {lo hi : Nat} {ls : List (Lexeme Rule)}
    (h : InOrder lo (ls.map Lexeme.span) hi) : InOrder lo (commentsOf ls) hi := by
  induction ls generalizing lo with
  | nil => exact h
  | cons l ls ih =>
    obtain ⟨h₁, h₂, h₃⟩ := h
    have hrest := ih h₃
    cases l with
    | comment sp => exact ⟨h₁, h₂, hrest⟩
    | word sp | token _ sp => exact .of_le (Nat.le_trans h₁ h₂) hrest

section Main

variable {s : Source} {ls : List (Lexeme Rule)}

/-- Trees of a match from `c` to `d` in their text: their lexemes are among `ls`, the table holds
their comments and no other between the two cursors, and they have these pieces. -/
structure Scene (s : Source) (ls : List (Lexeme Rule)) (c : Cursor) (ts : List (Derivation Rule))
    (ps : List Piece) (d : Cursor) : Prop where
  on : c.On s
  split : ∃ before behind,
    Split s c.offset before (commentsOf (Rule.grammar.lexemesAll ts)) behind d.offset
  lex : Rule.grammar.lexemesAll ts ⊆ ls
  pieces : piecesOfAll s ts = some ps

namespace Scene

variable {c mid d : Cursor} {ts us : List (Derivation Rule)} {ps : List Piece}

/-- A match in two parts. -/
theorem append {w : List Char} (h : Scene s ls c (ts ++ us) ps d) (hw : c.Reaches w mid)
    (hts : InOrder c.offset ((Rule.grammar.lexemesAll ts).map Lexeme.span) mid.offset)
    (hus : InOrder mid.offset ((Rule.grammar.lexemesAll us).map Lexeme.span) d.offset) :
    ∃ qs rs, ps = qs ++ rs ∧ Scene s ls c ts qs mid ∧ Scene s ls mid us rs d := by
  obtain ⟨hon, ⟨before, behind, hsplit⟩, hlex, hps⟩ := h
  rw [Rules.lexemesAll_append, commentsOf_append] at hsplit
  rw [Rules.lexemesAll_append, List.append_subset] at hlex
  obtain ⟨qs, rs, hqs, hrs, rfl⟩ := piecesOfAll_append hps
  exact ⟨qs, rs, rfl,
    ⟨hon, ⟨_, _, hsplit.left (inOrder_commentsOf hus)⟩, hlex.1, hqs⟩,
    ⟨hw.on hon, ⟨_, _, hsplit.right (inOrder_commentsOf hts)⟩, hlex.2, hrs⟩⟩

/-- A gap has no pieces. -/
theorem gap (hm : m.token = false) (h : Scene s ls c (m.gapLeaves c) ps (m.gap c).2) :
    ps = [] ∧ s.Spaced c.offset (m.gap c).2.offset := by
  obtain ⟨hon, ⟨before, behind, hsplit⟩, -, hps⟩ := h
  rw [commentsOf_gapLeaves, Mode.gap_of_tree hm] at hsplit
  rw [Mode.gapLeaves, piecesOfAll_comments] at hps
  rw [Mode.gap_of_tree hm]
  exact ⟨(Option.some.inj hps).symm, (gapTo_gap c).spaced hon hsplit⟩

/-- A match, a gap and a match. -/
theorem seq {w : List Char} (hm : m.token = false)
    (h : Scene s ls c (ts ++ m.gapLeaves mid ++ us) ps d) (hw : c.Reaches w mid)
    (hts : InOrder c.offset ((Rule.grammar.lexemesAll ts).map Lexeme.span) mid.offset)
    (hus : InOrder (m.gap mid).2.offset ((Rule.grammar.lexemesAll us).map Lexeme.span) d.offset) :
    ∃ qs rs, ps = qs ++ rs ∧ Scene s ls c ts qs mid ∧ Scene s ls (m.gap mid).2 us rs d ∧
      s.Spaced mid.offset (m.gap mid).2.offset := by
  obtain ⟨v, hv⟩ := m.gap_reaches mid
  have hgap := gapLeaves_inOrder Rule.grammar m mid
  have hfront : InOrder c.offset ((Rule.grammar.lexemesAll (ts ++ m.gapLeaves mid)).map
      Lexeme.span) (m.gap mid).2.offset := by
    rw [Rules.lexemesAll_append, List.map_append]
    exact hts.append hgap
  obtain ⟨_, rs, rfl, hfront, hback⟩ := h.append (hw.trans hv) hfront hus
  obtain ⟨qs, gs, rfl, hfirst, hmid⟩ := hfront.append hw hts hgap
  obtain ⟨rfl, hspaced⟩ := hmid.gap hm
  exact ⟨qs, rs, by simp, hfirst, hback, hspaced⟩

/-- A gap, a match and more of them. -/
theorem again {x : Peg Rule} (hm : m.token = false)
    (h : Scene s ls c (m.gapLeaves c ++ ts ++ us) ps d)
    (hx : Takes Rule.grammar m (.once x) (m.gap c).2 ts mid)
    (hmore : Takes Rule.grammar m (.further x) mid us d) :
    ∃ qs rs, ps = qs ++ rs ∧ Scene s ls (m.gap c).2 ts qs mid ∧ Scene s ls mid us rs d ∧
      s.Spaced c.offset (m.gap c).2.offset := by
  obtain ⟨u, hu⟩ := hx.reaches
  have hnil : InOrder c.offset ((Rule.grammar.lexemesAll []).map Lexeme.span) c.offset :=
    Nat.le_refl _
  have hback : InOrder (m.gap c).2.offset
      ((Rule.grammar.lexemesAll (ts ++ us)).map Lexeme.span) d.offset := by
    rw [Rules.lexemesAll_append, List.map_append]
    exact hx.inOrder.append hmore.inOrder
  rw [List.append_assoc, ← List.nil_append (m.gapLeaves c ++ _), ← List.append_assoc] at h
  obtain ⟨_, _, rfl, hnone, hboth, hspaced⟩ := h.seq hm (.refl c) hnil hback
  obtain rfl := Option.some.inj hnone.pieces
  obtain ⟨qs, rs, rfl, hxscene, hrest⟩ := hboth.append hu hx.inOrder hmore.inOrder
  exact ⟨qs, rs, rfl, hxscene, hrest, hspaced⟩

/-- The parts of a node. -/
theorem parts {raw : Span} {qs : List Piece} (h : Scene s ls c [.node r raw ts] ps d)
    (hr : r.kind = .tree) (hqs : piecesOfAll s ts = some qs) : Scene s ls c ts qs d := by
  have hleaf : Rule.grammar.lexemesAll [.node r raw ts] = Rule.grammar.lexemesAll ts := by
    simp [Rules.lexemesAll, Rules.lexemes, Rule.grammar, hr]
  obtain ⟨hon, hsplit, hlex, -⟩ := h
  rw [hleaf] at hsplit hlex
  exact ⟨hon, hsplit, hlex, hqs⟩

end Scene

theorem gap_gap (hm : m.token = false) (c : Cursor) :
    gap (m.gap c).2 = ([], (m.gap c).2) := by
  rw [Mode.gap_of_tree hm]
  exact (gapTo_gap c).gap_eq

/-- A word as an item. -/
theorem grown_leaf {w : List Char} (hm : m.token = false)
    (hfirm : (!w.isEmpty && w.all (!isSpace ·)) = true) (hcalm : calm w = true)
    (hreach : c.Reaches w d) (h : Scene s ls c (m.leaf ⟨c.offset, d.offset⟩) ps d) :
    ps = [] ∧ s.Solid ⟨c.offset, d.offset⟩ ∧
      Grown s ls ⟨.word ⟨c.offset, d.offset⟩, ⟨c.offset, d.offset⟩, []⟩ := by
  obtain ⟨hon, ⟨before, behind, hsplit⟩, hlex, hps⟩ := h
  have hleaf : Rule.grammar.lexemesAll (m.leaf ⟨c.offset, d.offset⟩)
      = [.word ⟨c.offset, d.offset⟩] := by
    simp [Mode.leaf, hm, Rules.lexemesAll, Rules.lexemes]
  rw [hleaf] at hsplit hlex
  obtain ⟨hne, hspace⟩ := Bool.and_eq_true_iff.1 hfirm
  have hsolid : s.Solid ⟨c.offset, d.offset⟩ := by
    have hpos := byteLength_pos (Bool.not_eq_true' _ ▸ hne)
    have hsplit : Split s c.offset before [] behind d.offset := hsplit
    have hnone := hsplit.stop_ne (by rw [hreach.offset_eq]; omega)
    have hne' : w ≠ [] := by simpa using hne
    have hchar : ∀ ch ∈ w, isSpace ch = false := fun ch hch => by
      simpa using List.all_eq_true.1 hspace ch hch
    have hzero : Text.spaceLength false .space (w ++ d.rest) = 0 := by
      obtain ⟨f, t, rfl⟩ := List.exists_cons_of_ne_nil hne'
      refine Text.spaceLength_eq_zero (hchar f (by simp)) ?_
      rintro rfl
      cases t with
      | nil => simp [calm] at hcalm
      | cons e t => simp_all [calm]
    unfold Cursor.On at hon
    rw [hreach.rest_eq] at hon
    rw [hreach.offset_eq] at hnone ⊢
    exact Source.solid_of_text hon hzero (List.dropLast_concat_getLast hne').symm
      (hchar _ (List.getLast_mem hne')) hnone
  refine ⟨?_, hsolid, .word (hlex (by simp)) hsolid⟩
  simpa [Mode.leaf, hm, piecesOfAll, piecesOf] using hps.symm

/-- The pieces of a node, from those of its parts. -/
theorem piecesOf_node {raw : Span} {parts : List (Derivation Rule)}
    (h : piecesOfAll s [.node r raw parts] = some ps) :
    ∃ qs, piecesOfAll s parts = some qs ∧
      (Piece.isPlainWord r = true ∧ ps = [] ∨ Piece.isPlainWord r = false ∧ ∃ text,
        (if Piece.readsText r then s.slice? raw else some []) = some text ∧
        (Piece.assemble? r (trim s raw) text qs).map ([·]) = some ps) := by
  rw [piecesOfAll] at h
  split at h
  · rename_i qs rs hqs hrs
    obtain rfl : rs = [] := by simpa [piecesOfAll] using hrs.symm
    obtain rfl : ps = qs := by simpa using h.symm
    rw [piecesOf] at hqs
    split at hqs
    · cases hqs
    · rename_i qs hparts
      refine ⟨qs, hparts, ?_⟩
      split at hqs
      · rename_i hplain
        exact .inl ⟨hplain, by simpa using hqs.symm⟩
      · rename_i hplain
        split at hqs
        · cases hqs
        · rename_i text htext
          exact .inr ⟨by simpa using hplain, text, htext, hqs⟩
  · cases h

/-- A token as an item. -/
theorem grown_token {parts : List (Derivation Rule)} (hm : m.token = true) (hr : r.kind = .token)
    (hpass : passes slash r = true) (hc : gap c = ([], c))
    (hstar : slash = true → d.rest.head? ≠ some '*')
    (h : Takes Rule.grammar m (.once (Rule.grammar.body r)) c parts d)
    (hscene : Scene s ls c [.node r ⟨c.offset, d.offset⟩ parts] ps d) :
    s.Solid ⟨c.offset, d.offset⟩ ∧
      Grown s ls ⟨.node r ⟨c.offset, d.offset⟩ [], ⟨c.offset, d.offset⟩, ps⟩ := by
  obtain ⟨hon, ⟨before, behind, hsplit⟩, hlex, hps⟩ := hscene
  have hleaf : Rule.grammar.lexemesAll [.node r ⟨c.offset, d.offset⟩ parts]
      = [.token r ⟨c.offset, d.offset⟩] := by
    simp [Rules.lexemesAll, Rules.lexemes, Rule.grammar, hr]
  rw [hleaf] at hsplit hlex
  have hsolid := solid_token hm hr hpass hc hstar hon hsplit h
  obtain ⟨w, hw⟩ := h.reaches
  have htext : s.slice? ⟨c.offset, d.offset⟩ = some w := by
    unfold Cursor.On at hon
    rw [hw.rest_eq] at hon
    exact Source.slice?_eq_some hon hw.offset_eq
  obtain rfl := Takes.nil_of_token hm h
  have htrim : trim s ⟨c.offset, d.offset⟩ = ⟨c.offset, d.offset⟩ := by
    have hlt := hsolid.lt
    simp only at hlt
    simp only [trim, hsolid.start, hsolid.stop]
    rw [Nat.min_eq_left (by omega), Nat.max_eq_left (by omega)]
  obtain ⟨qs, hqs, hnode⟩ := piecesOf_node hps
  obtain rfl : qs = [] := by simpa [piecesOfAll] using hqs.symm
  have hreads : Piece.readsText r = true := by simp [Piece.readsText, hr]
  refine ⟨hsolid, .token hr (hlex (by simp)) hsolid htext ⟨m, c, [], d, hm, hw, h⟩ ?_⟩
  unfold piecesFor
  rcases hnode with ⟨hplain, rfl⟩ | ⟨hplain, text, htext', hpiece⟩
  · rw [if_pos hplain]
  · rw [if_pos hreads, htext] at htext'
    rw [htrim, ← Option.some.inj htext'] at hpiece
    rw [if_neg (by simp [hplain]), hpiece]

theorem kind_of_isPlainWord (h : Piece.isPlainWord r = true) : r.kind = .token := by
  have hall : ∀ r ∈ Rule.all, Piece.isPlainWord r = true → r.kind = .token := by decide
  exact hall r r.mem_all h

/-- A node that is no token as an item, from the items of its parts. -/
theorem grown_tree {raw : Span} {parts : List (Derivation Rule)} {items : List Item}
    (hr : r.kind = .tree) (hforms : Forms r.body items) (hne : items ≠ [])
    (hlinked : Linked s raw.start items raw.stop) (hgrown : ∀ i ∈ items, Grown s ls i)
    (hitems : piecesOfAll s parts = some (items.flatMap (·.pieces)))
    (hps : piecesOfAll s [.node r raw parts] = some ps) :
    Grown s ls ⟨.node r raw parts, hull items, ps⟩ := by
  obtain ⟨qs, hqs, hnode⟩ := piecesOf_node hps
  obtain rfl : items.flatMap (·.pieces) = qs := by rw [hitems] at hqs; exact Option.some.inj hqs
  rcases hnode with ⟨hplain, -⟩ | ⟨hplain, text, htext, hpiece⟩
  · rw [kind_of_isPlainWord hplain] at hr
    cases hr
  · refine .tree hr hforms hlinked hne hgrown htext ?_
    rw [piecesFor, if_neg (by simp [hplain]), ← (hlinked.hull hne).2]
    exact hpiece

/-- Every match of the grammar is made of words and nodes that stand in the text one behind the
other. -/
theorem grown_of_takes {k : Trial Rule} (hm : m.token = false) (h : Takes Rule.grammar m k c ts d)
    (hk : trialLevel slash k = true) (hfirm : firm k.peg = true)
    (hfix : ∀ e, k = .once e → gap c = ([], c)) (hstar : slash = true → d.rest.head? ≠ some '*')
    (hscene : Scene s ls c ts ps d) :
    ∃ items, Linked s c.offset items d.offset ∧ Trial.Forms k items ∧
      items.flatMap (·.pieces) = ps ∧ ∀ i ∈ items, Grown s ls i := by
  induction h generalizing slash ps with
  | word h =>
    obtain ⟨rfl, hsolid, hgrown⟩ := grown_leaf hm hfirm hk (reaches_of_afterWord? h) hscene
    exact ⟨_, Linked.singleton hsolid, .word, rfl, by simpa using hgrown⟩
  | words hw h =>
    obtain ⟨rfl, hsolid, hgrown⟩ := grown_leaf hm (List.all_eq_true.1 hfirm _ hw)
      (List.all_eq_true.1 hk _ hw) (reaches_of_afterWord? h) hscene
    exact ⟨_, Linked.singleton hsolid, .words, rfl, by simpa using hgrown⟩
  | one | startOfText | endOfText => cases hfirm
  | absent | never | ahead | notAhead | done =>
    obtain rfl : ps = [] := by simpa [piecesOfAll] using hscene.pieces.symm
    exact ⟨[], .refl hscene.on.boundary, by constructor, rfl, by simp⟩
  | @rule m r c parts d h ih =>
    rw [if_neg (by simp [hm])] at hscene
    by_cases hr : r.kind = .token
    · have hpasses : passes slash r = true := by simpa [trialLevel, level, hr] using hk
      have hinner : (Rule.grammar.inner r m).token = true := by
        simp [Rules.inner, Rule.grammar, hr]
      obtain ⟨hsolid, hgrown⟩ := grown_token hinner hr hpasses (hfix _ rfl) hstar h hscene
      exact ⟨[_], Linked.singleton hsolid, .rule, List.append_nil _, by simpa using hgrown⟩
    · have htree : r.kind = .tree := by
        cases hkind : r.kind with
        | tree => rfl
        | token => exact absurd hkind hr
      have hinner : Rule.grammar.inner r m = m := by simp [Rules.inner, Rule.grammar, hr]
      have hnot : r ≠ .endOfInput ∧ r ≠ .compilationUnit := by
        simpa [firm, Trial.peg] using hfirm
      obtain ⟨hbody, hyields⟩ := firm_body htree hnot.1 hnot.2
      -- The items of the body become one item, and their ends are its ends.
      obtain ⟨qs, hqs, -⟩ := piecesOf_node hscene.pieces
      obtain ⟨items, hlinked, hforms, rfl, hgrown⟩ := ih (by rw [hinner, hm])
        (level_body htree) hbody (fun _ _ => hfix _ rfl) (by simp) (hscene.parts htree hqs)
      have hne := hforms.ne_nil hyields
      have hself := grown_tree htree hforms hne hlinked hgrown hqs hscene.pieces
      exact ⟨[_], hlinked.collapse hne _ ps, .rule, List.append_nil _, by simpa using hself⟩
  | left _ ih =>
    obtain ⟨items, hlinked, hforms, hrest⟩ := ih hm (Bool.and_eq_true_iff.1 hk).1
      (Bool.and_eq_true_iff.1 hfirm).1 (fun _ _ => hfix _ rfl) hstar hscene
    exact ⟨items, hlinked, .left hforms, hrest⟩
  | right _ _ ih =>
    obtain ⟨items, hlinked, hforms, hrest⟩ := ih hm (Bool.and_eq_true_iff.1 hk).2
      (Bool.and_eq_true_iff.1 hfirm).2 (fun _ _ => hfix _ rfl) hstar hscene
    exact ⟨items, hlinked, .right hforms, hrest⟩
  | present _ ih =>
    obtain ⟨items, hlinked, hforms, hrest⟩ :=
      ih hm hk hfirm (fun _ _ => hfix _ rfl) hstar hscene
    exact ⟨items, hlinked, .present hforms, hrest⟩
  | @seq m x y c trees mid others d hx hy ihx ihy =>
    obtain ⟨slash', hxk, hmid⟩ := level_first hk hy
    obtain ⟨hxfirm, hyfirm⟩ := Bool.and_eq_true_iff.1 hfirm
    obtain ⟨u, hu⟩ := hx.reaches
    obtain ⟨qs, rs, rfl, hxscene, hyscene, hspaced⟩ := hscene.seq hm hu hx.inOrder hy.inOrder
    obtain ⟨is, his, hisForms, rfl, hisGrown⟩ :=
      ihx hm hxk hxfirm (fun _ _ => hfix _ rfl) hmid hxscene
    obtain ⟨js, hjs, hjsForms, rfl, hjsGrown⟩ :=
      ihy hm (Bool.and_eq_true_iff.1 hk).1 hyfirm (fun _ _ => gap_gap hm mid) hstar hyscene
    refine ⟨is ++ js, his.append (.of_spaced hspaced hjs), .seq hisForms hjsForms, by simp,
      fun i hi => ?_⟩
    exact (List.mem_append.1 hi).elim (hisGrown i) (hjsGrown i)
  | @many m x c first mid others d hx h ihx ih =>
    obtain ⟨u, hu⟩ := hx.reaches
    obtain ⟨qs, rs, rfl, hxscene, hrest⟩ := hscene.append hu hx.inOrder h.inOrder
    obtain ⟨is, his, hisForms, rfl, hisGrown⟩ :=
      ihx hm hk hfirm (fun _ _ => hfix _ rfl) (by simp) hxscene
    obtain ⟨js, hjs, hjsForms, rfl, hjsGrown⟩ := ih hm hk hfirm (fun _ h => by cases h) hstar hrest
    refine ⟨is ++ js, his.append hjs, .many hisForms hjsForms, by simp, fun i hi => ?_⟩
    exact (List.mem_append.1 hi).elim (hisGrown i) (hjsGrown i)
  | @again m x c trees mid others d hx h ihx ih =>
    obtain ⟨qs, rs, rfl, hxscene, hrest, hspaced⟩ := hscene.again hm hx h
    obtain ⟨is, his, hisForms, rfl, hisGrown⟩ :=
      ihx hm hk hfirm (fun _ _ => gap_gap hm c) (by simp) hxscene
    obtain ⟨js, hjs, hjsForms, rfl, hjsGrown⟩ := ih hm hk hfirm (fun _ h => by cases h) hstar hrest
    refine ⟨is ++ js, .of_spaced hspaced (his.append hjs), .many hisForms hjsForms, by simp,
      fun i hi => ?_⟩
    exact (List.mem_append.1 hi).elim (hisGrown i) (hjsGrown i)

/-- The first part of a sequence, and the rest still to be read. -/
theorem grown_of_seq {x y : Peg Rule} (hm : m.token = false)
    (h : Takes Rule.grammar m (.once (.seq x y)) c ts d) (hlevel : level false x = true)
    (hfirm : firm x = true) (hfix : gap c = ([], c)) (hscene : Scene s ls c ts ps d) :
    ∃ items mid others rs, Linked s c.offset items mid.offset ∧ (∀ i ∈ items, Grown s ls i) ∧
      ps = items.flatMap (·.pieces) ++ rs ∧ gap mid = ([], mid) ∧
      Takes Rule.grammar m (.once y) mid others d ∧ Scene s ls mid others rs d := by
  cases h with
  | @seq _ _ _ _ trees mid others _ hx hy =>
    obtain ⟨u, hu⟩ := hx.reaches
    obtain ⟨qs, rs, rfl, hxscene, hyscene, hspaced⟩ := hscene.seq hm hu hx.inOrder hy.inOrder
    have hlevel : trialLevel false (.once x) = true := hlevel
    obtain ⟨items, hitems, -, rfl, hgrown⟩ :=
      grown_of_takes hm hx hlevel hfirm (fun _ _ => hfix) (by simp) hxscene
    have hlinked : Linked s c.offset (items ++ []) (m.gap mid).2.offset := hitems.append hspaced
    rw [List.append_nil] at hlinked
    exact ⟨items, _, others, rs, hlinked, hgrown, rfl, gap_gap hm mid, hy, hyscene⟩

/-- The text of a unit as a scene. -/
theorem scene_of_derivation {t : Derivation Rule} {u : CompilationUnit} (h : derivation? s = some t)
    (htable : s.comments = commentsOf (Rule.grammar.lexemes t))
    (hu : CompilationUnit.ofDerivation? s t = some u) :
    ∃ parts ps d, t = .node .compilationUnit ⟨0, d.offset⟩ parts ∧
      Takes Rule.grammar ⟨false, .none⟩ (.once (.seq .startOfText unitParts)) ⟨0, s.chars⟩ parts d ∧
      Scene s (Rule.grammar.lexemes t) ⟨0, s.chars⟩ parts ps d ∧
      Piece.unit? (trim s ⟨0, d.offset⟩) ps = some u := by
  obtain ⟨d, htakes⟩ := takes_of_derivation? h
  obtain ⟨parts, hparts, ht⟩ := htakes.of_rule
  obtain rfl : t = .node .compilationUnit ⟨0, d.offset⟩ parts := List.singleton_inj.1 ht
  have hlex : Rule.grammar.lexemes (.node .compilationUnit ⟨0, d.offset⟩ parts)
      = Rule.grammar.lexemesAll parts := rfl
  have hall : piecesOfAll s [.node .compilationUnit ⟨0, d.offset⟩ parts] = some [.unit u] := by
    simp [piecesOfAll, piecesOf_of_ofDerivation? hu]
  obtain ⟨ps, hps, hplain | ⟨-, text, -, hunit⟩⟩ := piecesOf_node hall
  · cases hplain.1
  · obtain ⟨p, hp, hone⟩ := Option.map_eq_some_iff.1 hunit
    obtain rfl := List.singleton_inj.1 hone
    obtain ⟨v, hv, hsame⟩ := Option.map_eq_some_iff.1
      (show (Piece.unit? (trim s ⟨0, d.offset⟩) ps).map Piece.unit = some (.unit u) from hp)
    cases hsame
    exact ⟨parts, ps, d, rfl, hparts, ⟨Text.dropBytes?_zero _,
      ⟨[], [], by simpa [hlex] using htable, by simp, by simp⟩, fun _ h => h, hps⟩, hv⟩

/-- What a unit is made of: items that fill its text, and the end of it. -/
theorem grown_of_derivation {t : Derivation Rule} {u : CompilationUnit} (h : derivation? s = some t)
    (htable : s.comments = commentsOf (Rule.grammar.lexemes t))
    (hu : CompilationUnit.ofDerivation? s t = some u) :
    ∃ items, Linked s 0 items s.size ∧ (∀ i ∈ items, Grown s (Rule.grammar.lexemes t) i) ∧
      Piece.unit? (trim s ⟨0, s.size⟩) (items.flatMap (·.pieces) ++ [Piece.mark .endOfInput])
        = some u := by
  obtain ⟨parts, ps, d, -, hparts, hscene, hunit⟩ := scene_of_derivation h htable hu
  have hend : d.offset = s.size := by
    obtain ⟨w, hw⟩ := hparts.reaches
    have hdon := hw.on hscene.on
    cases hparts with
    | seq _ hunit =>
      unfold Cursor.On at hdon
      rw [rest_eq_nil_of_unitParts hunit] at hdon
      simpa using Source.add_byteLength hdon
  rw [hend] at hunit
  cases hparts with
  | seq hstart hrest =>
    cases hstart
    obtain ⟨_, _, rfl, hnone, hscene₀, hspaced⟩ :=
      hscene.seq rfl (.refl _) (Nat.le_refl _) hrest.inOrder
    obtain rfl := Option.some.inj hnone.pieces
    obtain ⟨is, mid₁, _, _, his, hisGrown, rfl, hfix₁, htakes₁, hscene₁⟩ :=
      grown_of_seq rfl hrest (by decide) (by decide) (gap_gap rfl _) hscene₀
    obtain ⟨js, mid₂, _, _, hjs, hjsGrown, rfl, hfix₂, htakes₂, hscene₂⟩ :=
      grown_of_seq rfl htakes₁ (by decide) (by decide) hfix₁ hscene₁
    obtain ⟨ks, mid₃, _, _, hks, hksGrown, rfl, hfix₃, htakes₃, hscene₃⟩ :=
      grown_of_seq rfl htakes₂ (by decide) (by decide) hfix₂ hscene₂
    obtain ⟨end_, hlast, rfl⟩ := htakes₃.of_rule
    rw [body_endOfInput] at hlast
    cases hlast with
    | endOfText =>
      obtain rfl := Option.some.inj hscene₃.pieces
      refine ⟨is ++ js ++ ks, ?_, ?_, ?_⟩
      · rw [← hend]
        exact ((Linked.of_spaced hspaced his).append hjs).append hks
      · intro i hi
        simp only [List.mem_append] at hi
        exact hi.elim (·.elim (hisGrown i) (hjsGrown i)) (hksGrown i)
      · simpa using hunit

end Main

end Transcribe.Java
