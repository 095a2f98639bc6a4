/-
  Transcribe.Proofs.Operands — binary expressions of a text.

  Wherever a binary expression is matched, its operands are expressions without operators at their
  root, and the pieces of the match stand one behind the other. So the expression made of them is
  the grouped tree over its operands. Where the table holds the comments of the match, a test ends
  with its type, and every node of the tree ends with its last operand or type.

  An operand comes from the rule of unary expressions, through rules that pass on one part
  (`Rule.isOperand`), so it is not joined (`Expr.isJoined`). Tokens begin with a character that
  opens no gap, which is checked on the grammar (`Peg.opens`), so the operands lie in their order
  whatever the table of comments holds. The end of a test does depend on the table: a literal that
  throws the pass off hides a comment behind the type, and the test ends with that comment.
  - `inOrder_of_takes`: the spans of the pieces of a match lie in their order.
  - `operand_of_takes`: operands are not joined themselves.
  - `stop_of_grown`: a test ends where its type does.
  - `grouped_of_run`: every match of a binary expression is made into the only grouped tree.
-/

import Transcribe.Proofs.Grouping
import Transcribe.Proofs.Spelling
import Transcribe.Proofs.Total.Parse

namespace Transcribe

namespace Text.Source

theorem stepsBack_le (s : Source) (n o : Nat) : s.stepsBack n o ≤ o := by
  induction n generalizing o with
  | zero => exact Nat.le_refl o
  | succ n ih =>
    rw [stepsBack]
    split
    · rename_i hlt
      exact Nat.le_trans (ih _) (Nat.le_of_lt hlt)
    · exact Nat.le_refl o

theorem skipSpaceBack_le (s : Source) (o : Nat) : s.skipSpaceBack o ≤ o :=
  Nat.le_trans (s.stepsBack_le _ _) (Nat.min_le_left o _)

end Text.Source

namespace Grammar

open Text (Span)

variable {ρ : Type} {g : Rules ρ} {m : Mode} {c d : Cursor} {ts : List (Derivation ρ)}

/-! ## Where a match begins -/

def opening (ch : Char) : Bool := !isGapChar ch && ch != '/'

/-- Whether all that the expression matches begins with such a character, as a token or not; looks
into `n` nested expressions. -/
def Peg.opens (g : Rules ρ) : Nat → Bool → Peg ρ → Bool
  | 0, _, _ => false
  | n + 1, token, e =>
    match e with
    | .word w => w.head?.any opening
    | .words ws => ws.all fun w => w.head?.any opening
    | .one p => !p ' ' && !p '\t' && !p '\n' && !p '\r' && !p '/'
    | .rule r => opens g n (token || g.kind r == .token) (g.body r)
    | .seq x y => opens g n token x || token && x.still && opens g n token y
    | .alt x y => opens g n token x && opens g n token y
    | _ => false

theorem opening_of_class {p : Char → Bool}
    (hp : (!p ' ' && !p '\t' && !p '\n' && !p '\r' && !p '/') = true) {ch : Char}
    (h : p ch = true) : opening ch = true := by
  simp only [Bool.and_eq_true, Bool.not_eq_true'] at hp
  have hne := ne_of_class h
  simp [opening, isGapChar, Text.isBreak, hne _ hp.1.1.1.1, hne _ hp.1.1.1.2, hne _ hp.1.1.2,
    hne _ hp.1.2, hne _ hp.2]

theorem opening_of_word {w rest : List Char} (hw : w.head?.any opening = true)
    (h : afterWord? w c.rest = some rest) : ∃ ch cs, c.rest = ch :: cs ∧ opening ch = true := by
  rw [eq_append_of_afterWord? h]
  cases w with
  | nil => cases hw
  | cons ch w => exact ⟨ch, w ++ rest, rfl, by simpa using hw⟩

theorem Takes.opens {n : Nat} {token : Bool} {e : Peg ρ} (hm : m.token = token)
    (he : e.opens g n token = true) (h : Takes g m (.once e) c ts d) :
    ∃ ch cs, c.rest = ch :: cs ∧ opening ch = true := by
  induction n generalizing e m token c ts d with
  | zero => cases he
  | succ n ih =>
    cases h with
    | word h => exact opening_of_word he h
    | words hw h => exact opening_of_word (List.all_eq_true.1 he _ hw) h
    | one h => exact ⟨_, _, rfl, opening_of_class he h⟩
    | @rule _ r _ _ _ h =>
      refine ih ?_ he h
      subst hm
      cases hr : g.kind r with
      | token => simp [Rules.inner, hr]
      | tree => simp [Rules.inner, hr]
    | left h => exact ih hm (Bool.and_eq_true_iff.1 he).1 h
    | right _ h => exact ih hm (Bool.and_eq_true_iff.1 he).2 h
    | @seq _ x _ _ _ _ _ _ hx hy =>
      rcases Bool.or_eq_true_iff.1 he with he | he
      · exact ih hm he hx
      · simp only [Bool.and_eq_true] at he
        obtain ⟨⟨rfl, hstill⟩, hbehind⟩ := he
        rw [Mode.gap_of_token hm] at hy
        cases x with
        | startOfText | ahead | notAhead =>
          cases hx
          exact ih hm hbehind hy
        | _ => cases hstill
    | startOfText | endOfText | absent | present | never | many | ahead | notAhead => cases he

theorem gap_of_opening {ch : Char} {cs : List Char} (hc : c.rest = ch :: cs)
    (h : opening ch = true) : gap c = ([], c) := by
  obtain ⟨o, rest⟩ := c
  subst hc
  simp only [opening, Bool.and_eq_true, Bool.not_eq_true', bne_iff_ne, ne_eq] at h
  rw [gap, gapFrom, if_neg (by simp [h.1])]
  · rintro _ rfl
    exact absurd rfl h.2
  · rintro _ rfl
    exact absurd rfl h.2

end Grammar

namespace Java

open Grammar
open Text (Span Source)

variable {s : Source} {m : Mode} {k : Trial Rule} {c d : Cursor} {ts : List (Derivation Rule)}

/-- No gap begins where a binary expression does. -/
theorem gap_of_binaryExpression (hm : m.token = false)
    (h : Takes Rule.grammar m (.once (.rule .binaryExpression)) c ts d) : gap c = ([], c) := by
  obtain ⟨ch, cs, hc, hopen⟩ := h.opens (n := depth) hm (by decide)
  exact gap_of_opening hc hopen

/-! ## Pieces in order -/

theorem trim_inOrder (s : Source) {raw : Span} (h : raw.start ≤ raw.stop) :
    InOrder raw.start [trim s raw] raw.stop := by
  have hskip := Source.le_skipSpace (s := s) false raw.start
  have hback := s.skipSpaceBack_le raw.stop
  refine ⟨?_, ?_, ?_⟩ <;> simp only [trim, InOrder] <;> omega

/-- What a piece adds to the spans of a match. -/
theorem Piece.Made.inOrder {r : Rule} {raw : Span} {ps : List Piece} {p : Piece}
    (h : Piece.Made r (trim s raw) ps p) (hraw : raw.start ≤ raw.stop)
    (hps : InOrder raw.start (ps.filterMap Piece.span?) raw.stop) :
    InOrder raw.start ([p].filterMap Piece.span?) raw.stop := by
  have hnode : ∀ {n : Node}, p.node? = some n → n.span = trim s raw →
      InOrder raw.start ([p].filterMap Piece.span?) raw.stop := by
    intro n hn hspan
    rw [List.filterMap_cons_some (Piece.span?_of_node? hn), hspan]
    exact trim_inOrder s hraw
  cases h with
  | parts hspan =>
    rcases hspan with hspan | hspan
    · rw [List.filterMap_cons_none hspan]
      exact hraw
    · rw [List.filterMap_cons_some hspan]
      exact trim_inOrder s hraw
  | pass _ hq hspan =>
    subst hq
    simpa [List.filterMap_cons, hspan] using hps
  | node hn hspan => exact hnode hn hspan
  | wrap _ _ hn hspan => exact hnode hn hspan

def Link.pieces : Link → List Piece
  | .op o e => [.infixOp o, .expr e]
  | .test s t => [.test s t]

theorem Piece.eq_of_links? {ps : List Piece} {ks : List Link} (h : Piece.links? ps = some ks) :
    ps = ks.flatMap Link.pieces := by
  fun_induction Piece.links? ps generalizing ks with
  | case1 =>
    cases h
    rfl
  | case2 o e ps ih =>
    obtain ⟨ks, hks, rfl⟩ := Option.map_eq_some_iff.1 h
    rw [List.flatMap_cons, ← ih hks]
    rfl
  | case3 sp t ps ih =>
    obtain ⟨ks, hks, rfl⟩ := Option.map_eq_some_iff.1 h
    rw [List.flatMap_cons, ← ih hks]
    rfl
  | case4 => cases h

theorem spans_links (ks : List Link) :
    (ks.flatMap Link.pieces).filterMap Piece.span? = ks.map Link.span := by
  induction ks with
  | nil => rfl
  | cons k ks ih =>
    cases k with
    | op o e => exact congrArg (e.span :: ·) ih
    | test sp t => exact congrArg (sp :: ·) ih

/-- A tree over spans that lie in their order begins with the first of them and ends with the
last. -/
theorem Grouping.inOrder (g : Grouping) {lo hi : Nat} {rest : List Span}
    (h : InOrder lo (g.first.span :: g.links.map Link.span ++ rest) hi) :
    lo ≤ g.first.span.start ∧ g.first.span.start ≤ g.stop ∧ InOrder g.stop rest hi := by
  induction g generalizing lo rest with
  | operand e => exact h
  | infixed l o r ihl ihr =>
    simp only [first, links, List.map_append, List.map_cons, ← List.cons_append,
      List.append_assoc] at h
    obtain ⟨hlo, hle, hback⟩ := ihl h
    obtain ⟨hmid, hle', hback⟩ := ihr hback
    exact ⟨hlo, Nat.le_trans hle (Nat.le_trans hmid hle'), hback⟩
  | tested l sp t ih =>
    simp only [first, links, List.map_append, List.map_cons, ← List.cons_append,
      List.append_assoc] at h
    obtain ⟨hlo, hle, hstart, hstop, hback⟩ := ih h
    exact ⟨hlo, Nat.le_trans hle (Nat.le_trans hstart hstop), hback⟩

/-- The expression of an operand and what follows it. -/
theorem ofLinks_of_inOrder {e : Expr} {ks : List Link} {lo hi : Nat}
    (h : InOrder lo (e.span :: ks.map Link.span) hi) :
    Expr.ofLinks e ks = (Grouping.ofLinks e ks).toExpr ∧
      InOrder lo [(Expr.ofLinks e ks).span] hi := by
  have heq := Grouping.ofLinks_eq_toExpr h.2.1 h.2.2
  obtain ⟨hfirst, hlinks⟩ := Grouping.reading_ofLinks e ks
  refine ⟨heq, ?_⟩
  rw [heq, Grouping.span_toExpr]
  refine @Grouping.inOrder (Grouping.ofLinks e ks) _ _ [] ?_
  rwa [hfirst, hlinks, List.append_nil]

/-- The expression of a primary and the selectors behind it. -/
theorem foldl_apply_inOrder {sels : List Selector} {e : Expr} {lo hi : Nat}
    (h : InOrder lo (e.span :: sels.map Selector.span) hi) :
    InOrder lo [(sels.foldl Selector.apply e).span] hi := by
  induction sels generalizing e with
  | nil => exact h
  | cons sel sels ih =>
    obtain ⟨hlo, hle, hstart, hstop, hback⟩ := h
    refine ih ?_
    rw [Selector.span_apply, Grouping.join_eq (by omega) (by omega)]
    exact ⟨hlo, by simp only; omega, hback⟩

/-- The piece of a node that is no token, from the pieces of its parts. -/
theorem inOrder_of_assemble? {r : Rule} {raw : Span} {text : List Char} {ps : List Piece}
    {p : Piece} (hr : r.kind = .tree) (h : Piece.assemble? r (trim s raw) text ps = some p)
    (hps : InOrder raw.start (ps.filterMap Piece.span?) raw.stop) :
    InOrder raw.start ([p].filterMap Piece.span?) raw.stop := by
  by_cases hplain : Piece.isPlainTree r = true
  · exact (Piece.made_of_assemble? hplain h).inOrder hps.le hps
  · have hjoined : r = .binaryExpression ∨ r = .postfixExpression := by
      simpa [Piece.isPlainTree, hr, Classical.or_iff_not_imp_left] using hplain
    rcases hjoined with rfl | rfl
    · obtain ⟨first, rest, ks, rfl, hks, rfl⟩ := Piece.eq_of_binaryExpression h
      have hspan : (Piece.expr first).span? = some first.span := rfl
      rw [Piece.eq_of_links? hks, List.filterMap_cons_some hspan, spans_links] at hps
      exact (ofLinks_of_inOrder hps).2
    · obtain ⟨first, e, sels, rfl, he, rfl⟩ := Piece.eq_of_postfixExpression h
      have hspan : first.span? = some e.span := by cases first <;> cases he <;> rfl
      rw [List.filterMap_cons_some hspan, List.filterMap_map] at hps
      refine @foldl_apply_inOrder _ _ raw.start raw.stop ?_
      rwa [← List.filterMap_eq_map]

/-- The spans of the pieces of a match lie in their order. -/
theorem inOrder_of_takes {ps : List Piece} (hm : m.token = false)
    (h : Takes Rule.grammar m k c ts d) (hc : c.On s) (hps : piecesOfAll s ts = some ps) :
    InOrder c.offset (ps.filterMap Piece.span?) d.offset := by
  have hle := h.inOrder.le
  induction h generalizing ps with
  | word | words | one =>
    rw [Mode.leaf, if_neg (by simp [hm])] at hps
    cases hps
    exact hle
  | startOfText | endOfText | ahead | notAhead | absent | never | done =>
    cases hps
    exact hle
  | @rule m r c parts d h ih =>
    rw [if_neg (by simp [hm])] at hps
    obtain ⟨qs, hqs, ⟨-, rfl⟩ | ⟨-, text, htext, hpiece⟩⟩ := piecesOf_node hps
    · exact hle
    · obtain ⟨p, hp, rfl⟩ := Option.map_eq_some_iff.1 hpiece
      cases hr : r.kind with
      | tree =>
        refine @inOrder_of_assemble? _ _ ⟨c.offset, d.offset⟩ _ _ _ hr hp ?_
        exact ih (by rw [inner_tree hr, hm]) hc hqs hle
      | token =>
        have hinner := inner_token (m := m) hr
        obtain rfl := Takes.nil_of_token hinner h
        cases hqs
        obtain ⟨w, hw⟩ := h.reaches
        unfold Cursor.On at hc
        rw [hw.rest_eq] at hc
        rw [if_pos (by simp [Piece.readsText, hr]), Source.slice?_eq_some hc hw.offset_eq] at htext
        obtain rfl := Option.some.inj htext
        exact (made_of_token hr ⟨_, c, [], d, hinner, hw, h⟩ hp).inOrder hle hle
  | left _ ih | right _ _ ih | present _ ih => exact ih hm hc hps hle
  | @seq m _ _ _ _ mid _ _ hx hy ihx ihy =>
    obtain ⟨u, hu⟩ := hx.reaches
    obtain ⟨v, hv⟩ := m.gap_reaches mid
    obtain ⟨_, rs, hfront, hrs, rfl⟩ := piecesOfAll_append hps
    obtain ⟨qs, gs, hqs, hgs, rfl⟩ := piecesOfAll_append hfront
    rw [Mode.gapLeaves, piecesOfAll_comments] at hgs
    cases hgs
    rw [List.append_nil, List.filterMap_append]
    refine (ihx hm hc hqs hx.inOrder.le).append (.of_le (m.le_gap mid) ?_)
    exact ihy hm ((hu.trans hv).on hc) hrs hy.inOrder.le
  | many hx h ihx ih =>
    obtain ⟨u, hu⟩ := hx.reaches
    obtain ⟨qs, rs, hqs, hrs, rfl⟩ := piecesOfAll_append hps
    rw [List.filterMap_append]
    exact (ihx hm hc hqs hx.inOrder.le).append (ih hm (hu.on hc) hrs h.inOrder.le)
  | @again m _ c _ mid _ _ hx h ihx ih =>
    obtain ⟨u, hu⟩ := hx.reaches
    obtain ⟨v, hv⟩ := m.gap_reaches c
    obtain ⟨_, rs, hfront, hrs, rfl⟩ := piecesOfAll_append hps
    obtain ⟨gs, qs, hgs, hqs, rfl⟩ := piecesOfAll_append hfront
    rw [Mode.gapLeaves, piecesOfAll_comments] at hgs
    cases hgs
    rw [List.nil_append, List.filterMap_append]
    refine .append (.of_le (m.le_gap c) (ihx hm (hv.on hc) hqs hx.inOrder.le)) ?_
    exact ih hm ((hv.trans hu).on hc) hrs h.inOrder.le

/-! ## Operands -/

def Expr.isJoined : Expr → Bool
  | .binary _ _ _ _ | .instanceOf _ _ _ => true
  | _ => false

def Rule.isOperand : Rule → Bool
  | .unaryExpression | .prefixOperator | .castExpression | .postfixExpression | .postfixOperator
  | .methodSelector | .fieldSelector | .indexSelector | .thisExpression | .arrayCreation
  | .classInstanceCreation | .parenthesized | .unqualifiedCall | .identifier | .floatLiteral
  | .integerLiteral | .charLiteral | .stringLiteral | .booleanLiteral | .nullLiteral => true
  | _ => false

theorem isJoined_foldl_apply {sels : List Selector} {e : Expr}
    (h : (sels.foldl Selector.apply e).isJoined = true) : sels = [] := by
  rcases List.eq_nil_or_concat sels with hnil | ⟨before, last, rfl⟩
  · exact hnil
  · rw [List.concat_eq_append, List.foldl_append] at h
    cases last <;> cases h

/-- An operand is joined only if it is one of its own parts. -/
theorem joined_of_assemble? {r : Rule} {span : Span} {text : List Char} {ps : List Piece}
    {p : Piece} {e : Expr} (hr : r.isOperand = true) (h : Piece.assemble? r span text ps = some p)
    (hp : p.expr? = some e) (he : e.isJoined = true) :
    (r = .unaryExpression ∨ r = .postfixExpression) ∧ ∃ q ∈ ps, q.expr? = some e := by
  unfold Piece.assemble? at h
  cases r
  all_goals first | exact absurd hr Bool.false_ne_true | skip
  all_goals dsimp only at h
  case unaryExpression =>
    split at h
    · cases h
      exact ⟨.inl rfl, _, List.mem_singleton_self _, hp⟩
    · cases h
      cases hp
      cases he
    · cases h
  case postfixExpression =>
    split at h
    · rename_i first rest
      split at h
      · rename_i e' sels hfirst hsels
        cases h
        cases hp
        obtain rfl := isJoined_foldl_apply he
        exact ⟨.inr rfl, first, List.mem_cons_self, hfirst⟩
      · cases h
    · cases h
  case arrayCreation =>
    obtain ⟨e', he', rfl⟩ := Option.map_eq_some_iff.1 h
    cases hp
    obtain ⟨-, hrule, -⟩ := Piece.nodes_newArray? he'
    cases e <;> cases he
    all_goals cases hrule
  all_goals first
    | (cases h; cases hp; cases he)
    | (obtain ⟨_, -, rfl⟩ := Option.map_eq_some_iff.1 h; cases hp)
    | (split at h <;> cases h; cases hp; all_goals cases he)

/-- An operand is not joined: of a joined expression it is a part of a part, and so on without
end. -/
theorem operand_of_takes {m : Mode} {k : Trial Rule} {c d : Cursor} {ts : List (Derivation Rule)}
    (h : Takes Rule.grammar m k c ts d) {r : Rule} {raw : Span} {parts : List (Derivation Rule)}
    (hmem : .node r raw parts ∈ ts) (hr : r.isOperand = true) {qs : List Piece}
    (hqs : piecesOf s (.node r raw parts) = some qs) {q : Piece} (hq : q ∈ qs) {e : Expr}
    (he : q.expr? = some e) : e.isJoined = false := by
  obtain ⟨-, -, w, c', d', -, -, hparts⟩ := h.node_mem hmem
  have hall : piecesOfAll s [.node r raw parts] = some qs := by simp [piecesOfAll, hqs]
  obtain ⟨ps, hps, ⟨-, rfl⟩ | ⟨-, text, -, hpiece⟩⟩ := piecesOf_node hall
  · cases hq
  · obtain ⟨p, hp, rfl⟩ := Option.map_eq_some_iff.1 hpiece
    obtain rfl := List.mem_singleton.1 hq
    rw [Bool.eq_false_iff]
    intro hjoined
    obtain ⟨hrule, q', hq', he'⟩ := joined_of_assemble? hr hp he hjoined
    obtain ⟨t, ht, ps', hps', hq'⟩ := exists_part hps hq'
    cases t with
    | word | comment =>
      cases hps'
      cases hq'
    | node r' raw' parts' =>
      have hbody : ∀ r' ∈ r.body.rules, r'.isOperand = true := by
        rcases hrule with rfl | rfl <;> decide
      have hnot := operand_of_takes hparts ht (hbody r' (hparts.rule_mem ht)) hps' hq' he'
      rw [hnot] at hjoined
      cases hjoined
termination_by sizeOf ts
decreasing_by
  have := List.sizeOf_lt_of_mem hmem
  simp only [Derivation.node.sizeOf_spec] at this
  omega

/-! ## Tests -/

variable {ls : List (Lexeme Rule)}

/-- A test ends where its type does. -/
theorem stop_of_grown {raw span sp : Span} {parts : List (Derivation Rule)} {t : Ty}
    (h : Grown s ls ⟨.node .instanceofSuffix raw parts, span, [.test sp t]⟩) :
    sp.stop = t.span.stop := by
  cases h with
  | token hkind => cases hkind
  | @tree _ _ _ text _ items hkind hforms hlinked hne hparts htext hps =>
    cases hforms with
    | seq hx hy =>
      cases hx with
      | @rule _ raw₁ sp₁ parts₁ ps₁ =>
        cases hy with
        | @rule _ raw₂ sp₂ parts₂ ps₂ =>
          have hword := hparts _ List.mem_cons_self
          have htype := hparts ⟨.node .javaType raw₂ parts₂, sp₂, ps₂⟩ (by simp)
          obtain ⟨-, rfl⟩ : _ ∧ ps₁ = [] := hword.pieces.resolve_right (by simp [Piece.isPlainWord])
          obtain ⟨-, q, rfl⟩ := htype.pieces.resolve_left (by simp [Piece.isPlainWord])
          obtain ⟨p, hp, hone⟩ := Option.map_eq_some_iff.1 hps
          obtain rfl := List.singleton_inj.1 hone
          unfold Piece.assemble? at hp
          dsimp only at hp
          split at hp
          · rename_i ps t' hps
            cases hp
            cases hps
            have hspan := (fits_of_grown htype _ List.mem_cons_self).span? t.span rfl
            rw [hspan]
            rfl
          · cases hp

/-- The rules of the parts of a binary expression. -/
theorem rule_of_mem_binaryExpression {r : Rule} (h : r ∈ (Rule.body .binaryExpression).rules) :
    r = .unaryExpression ∨ r.operator? = some r := by
  have hall : ∀ r ∈ (Rule.body .binaryExpression).rules,
      r = .unaryExpression ∨ r.operator? = some r := by decide
  exact hall r h

/-- Of these only a test is made into a test. -/
theorem rule_of_test {r : Rule} {span sp : Span} {text : List Char} {ps : List Piece} {t : Ty}
    (hr : r ∈ (Rule.body .binaryExpression).rules)
    (h : Piece.assemble? r span text ps = some (.test sp t)) : r = .instanceofSuffix := by
  rcases rule_of_mem_binaryExpression hr with rfl | hop
  · unfold Piece.assemble? at h
    dsimp only at h
    split at h <;> cases h
  · cases r <;> cases hop
    · rfl
    · obtain ⟨op, -, hop⟩ := Option.map_eq_some_iff.1 h
      cases hop

/-- The operands of a binary expression are not joined. -/
theorem operand_of_parts {parts : List (Derivation Rule)} {ps : List Piece}
    (h : Takes Rule.grammar m (.once (Rule.body .binaryExpression)) c parts d)
    (hbuilt : ∀ t ∈ parts, Built s t) (hps : piecesOfAll s parts = some ps) {e : Expr}
    (he : .expr e ∈ ps) : e.isJoined = false := by
  obtain ⟨t, ht, qs, hqs, he⟩ := exists_part hps he
  cases t with
  | word | comment =>
    cases hqs
    cases he
  | node r raw parts' =>
    rcases rule_of_mem_binaryExpression (h.rule_mem ht) with rfl | hop
    · exact operand_of_takes h ht rfl hqs he rfl
    · have hpiece := (hbuilt _ ht).piece
      rw [hqs] at hpiece
      split at hpiece
      · cases hpiece
        cases he
      · obtain ⟨p, hp, hof⟩ := hpiece
        cases hp
        obtain rfl := List.mem_singleton.1 he
        have hnone : (none : Option Rule) = some r := (operator?_of_isOf hof).trans hop
        cases hnone

/-- Where the table holds the comments of a binary expression, its tests end with their types. -/
theorem stop_of_takes {parts : List (Derivation Rule)} {ps : List Piece} (hm : m.token = false)
    (hc : c.On s) (hgap : gap c = ([], c))
    (h : Takes Rule.grammar m (.once (Rule.body .binaryExpression)) c parts d)
    (hps : piecesOfAll s parts = some ps) {before behind : List Span}
    (hsplit : Split s c.offset before (commentsOf (Rule.grammar.lexemesAll parts)) behind d.offset)
    {sp : Span} {t : Ty} (htest : .test sp t ∈ ps) : sp.stop = t.span.stop := by
  have hlevel : trialLevel false (.once (Rule.body .binaryExpression)) = true := level_body rfl
  obtain ⟨items, -, hforms, rfl, hgrown⟩ := grown_of_takes hm h hlevel (by decide)
    (fun _ _ => hgap) (by simp) ⟨hc, ⟨before, behind, hsplit⟩, List.Subset.refl _, hps⟩
  obtain ⟨i, hi, htest⟩ := List.mem_flatMap.1 htest
  have hrule : ∀ {r span text qs ps raw parts}, piecesFor r span text qs = some ps →
      ⟨.node r raw parts, span, ps⟩ ∈ items → .test sp t ∈ ps →
      r = .instanceofSuffix ∧ ps = [.test sp t] := by
    intro r span text qs ps raw parts hps hi htest
    unfold piecesFor at hps
    split at hps
    · cases hps
      cases htest
    · obtain ⟨p, hp, rfl⟩ := Option.map_eq_some_iff.1 hps
      obtain rfl := List.mem_singleton.1 htest
      exact ⟨rule_of_test (Forms.rule_mem hforms hi) hp, rfl⟩
  have hself := hgrown i hi
  cases hself with
  | word => cases htest
  | token hkind _ _ _ _ hps =>
    obtain ⟨rfl, -⟩ := hrule hps hi htest
    cases hkind
  | tree _ _ _ _ _ _ hps =>
    obtain ⟨rfl, rfl⟩ := hrule hps hi htest
    exact stop_of_grown (hgrown _ hi)

/-- Wherever a binary expression is matched in a text, its parts are an operand and what follows it,
and the expression made of them is the tree over these operands that is grouped; there is no other.
No operand is itself joined by an operator or a test. Each node of the tree begins with its leftmost
operand and ends with its rightmost operand or test; and if the table holds the comments of the
match and no others there, a test ends with its type. -/
theorem grouped_of_run {s : Source} {n : Nat} {m : Mode} {c d : Cursor} {a a' : Attempts Rule}
    {ts : List (Derivation Rule)} (hc : s.rest? c.offset = some c.rest) (hm : m.token = false)
    (h : run Rule.grammar n (.rule .binaryExpression) m c a = some (.matched ts d a')) :
    ∃ parts first ks g, ts = [.node .binaryExpression ⟨c.offset, d.offset⟩ parts] ∧
      piecesOfAll s parts = some (.expr first :: ks.flatMap Link.pieces) ∧
      piecesOfAll s ts = some [.expr (Grouping.toExpr g)] ∧
      (g.first = first ∧ g.links = ks ∧ g.Grouped) ∧
      (∀ g', g'.first = first → g'.links = ks → g'.Grouped → g' = g) ∧
      (∀ e, .expr e ∈ Piece.expr first :: ks.flatMap Link.pieces → e.isJoined = false) ∧
      ((∃ before behind, Split s c.offset before
          ((Rule.grammar.lexemesAll ts).filterMap Lexeme.comment?) behind d.offset) →
        ∀ sp t, .test sp t ∈ ks → sp.stop = t.span.stop) := by
  have htakes := takes_of_run h
  have hgap := gap_of_binaryExpression hm htakes
  obtain ⟨⟨ps, hps, -⟩, hbuilt⟩ := built_of_takes hm htakes hc (by decide)
  obtain ⟨parts, hparts, rfl⟩ := htakes.of_rule
  rw [if_neg (by simp [hm])] at hps hbuilt ⊢
  rw [inner_tree rfl] at hparts
  obtain ⟨qs, hqs, ⟨hplain, -⟩ | ⟨-, text, -, hpiece⟩⟩ := piecesOf_node hps
  · cases hplain
  obtain ⟨p, hp, rfl⟩ := Option.map_eq_some_iff.1 hpiece
  obtain ⟨first, rest, ks, rfl, hks, rfl⟩ := Piece.eq_of_binaryExpression hp
  obtain rfl := Piece.eq_of_links? hks
  -- That the spans of the operands are in order is all that the ends of joined nodes depend on.
  have hin := inOrder_of_takes hm hparts hc hqs
  have hspan : (Piece.expr first).span? = some first.span := rfl
  rw [List.filterMap_cons_some hspan, spans_links] at hin
  obtain ⟨hfirst, hlinks⟩ := Grouping.reading_ofLinks first ks
  refine ⟨parts, first, ks, Grouping.ofLinks first ks, rfl, hqs, ?_,
    ⟨hfirst, hlinks, Grouping.grouped_ofLinks first ks⟩, ?_, ?_, ?_⟩
  · rw [hps, (ofLinks_of_inOrder hin).1]
  · rintro g rfl rfl hg
    exact (Grouping.ofLinks_of_grouped hg).symm
  · intro e he
    refine operand_of_parts hparts (fun t ht => hbuilt t ?_) hqs he
    simp only [Derivation.subtreesAll, Derivation.subtrees, Derivation.subtreesAll_eq,
      List.append_nil]
    exact List.mem_cons_of_mem _ (List.mem_flatMap.2 ⟨t, ht, t.self_mem_subtrees⟩)
  · rintro ⟨before, behind, hsplit⟩ sp t ht
    have hlex : Rule.grammar.lexemesAll [.node .binaryExpression ⟨c.offset, d.offset⟩ parts]
        = Rule.grammar.lexemesAll parts := by
      simp [Rules.lexemesAll, Rules.lexemes, Rule.grammar, Rule.kind]
    rw [hlex] at hsplit
    refine stop_of_takes hm hc hgap hparts hqs hsplit ?_
    exact List.mem_cons_of_mem _ (List.mem_flatMap.2 ⟨_, ht, List.mem_singleton_self _⟩)

def tieredText : String := "a+b*c instanceof D[] /*1*/ //\n==!e||f"

theorem grouped_of_run_sample : ∃ ts d a', run Rule.grammar 900 (.rule .binaryExpression)
      ⟨false, .none⟩ ⟨0, tieredText.toList⟩ .start = some (.matched ts d a') ∧
    ∃ parts first ks g, ts = [.node .binaryExpression ⟨0, d.offset⟩ parts] ∧
      piecesOfAll (Source.ofString "A" tieredText) ts = some [.expr (Grouping.toExpr g)] ∧
      (g.first = first ∧ g.links = ks ∧ g.Grouped) ∧
      ∀ sp t, .test sp t ∈ ks → sp.stop = t.span.stop := by
  have hsame : (run Rule.grammar 900 (.rule .binaryExpression) ⟨false, .none⟩
      ⟨0, tieredText.toList⟩ .start).any (fun out => out.answer.any fun x =>
        Text.comments tieredText.toList == (Rule.grammar.lexemesAll x.1).filterMap Lexeme.comment?)
      = true := by decide +kernel
  obtain ⟨out, hrun, hout⟩ := (Option.any_eq_true _ _).1 hsame
  obtain ⟨x, hx, hsame⟩ := (Option.any_eq_true _ _).1 hout
  cases out with
  | failed => cases hx
  | matched ts d a' =>
    cases hx
    have heq : (Source.ofString "A" tieredText).comments
        = (Rule.grammar.lexemesAll ts).filterMap Lexeme.comment? := beq_iff_eq.1 hsame
    have htable : Split (Source.ofString "A" tieredText) 0 []
        ((Rule.grammar.lexemesAll ts).filterMap Lexeme.comment?) [] d.offset :=
      ⟨by simpa using heq, by simp, by simp⟩
    have hstart : (Source.ofString "A" tieredText).rest? 0 = some tieredText.toList :=
      Text.dropBytes?_zero _
    obtain ⟨parts, first, ks, g, hts, -, hpieces, hg, -, -, hstop⟩ :=
      grouped_of_run (c := ⟨0, tieredText.toList⟩) hstart rfl hrun
    exact ⟨ts, d, a', hrun, parts, first, ks, g, hts, hpieces, hg, hstop ⟨[], [], htable⟩⟩

/-- A backslash before the last apostrophe of a literal, and a comment behind a type. -/
def overrunText : String :=
  "class A\x7bboolean b=\x27\\a\\\x27==x instanceof int /*c*/;\x7d"

/-- The pass takes the comment for a part of the literal, and the test ends behind it. -/
theorem stop_ne_of_overrun : ∃ p, parse "A.java" overrunText = .ok p ∧
    ∃ sp e t, .expr (.instanceOf sp e t) ∈ (Node.unit p.unit).descendants ∧
      t.span.stop < sp.stop := by
  have hlong : (parse "A.java" overrunText).toOption.any (fun p =>
      (Node.unit p.unit).descendants.any fun
        | .expr (.instanceOf sp _ t) => decide (t.span.stop < sp.stop)
        | _ => false) = true := by decide +kernel
  obtain ⟨p, h⟩ : ∃ p, parse "A.java" overrunText = .ok p := exists_parsed (by decide +kernel)
  rw [h] at hlong
  obtain ⟨n, hn, hlt⟩ := List.any_eq_true.1 hlong
  split at hlt
  · exact ⟨p, h, _, _, _, hn, of_decide_eq_true hlt⟩
  · cases hlt

end Java

end Transcribe
