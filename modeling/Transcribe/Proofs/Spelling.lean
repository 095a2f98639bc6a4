/-
  Transcribe.Proofs.Spelling — how the words of a syntax tree are spelled.

  Names and literals are spelled by tokens of their rules, and the modifiers of a declaration stand
  one behind the other from where it begins (`Chained`). Which rule a piece comes from can be told
  where only one rule makes such pieces (`maker?`). A node in its place is taken apart by its rule,
  and the pieces of its parts are followed through the text.
  - `Spells.identifier`: what a name is made of.
  - `Good.literal`: a literal is passed over, or its loop ends with it.
  - `Grown.path`: the segments of a dotted name.
  - `Good.chain`: the modifiers of a declaration.
-/

import Transcribe.Proofs.Origin
import Transcribe.Proofs.Token

namespace Transcribe.Text.Source

theorem exists_rest_of_slice? {s : Source} {a : Span} {w : List Char} (h : s.slice? a = some w) :
    (∃ r, s.rest? a.start = some (w ++ r)) ∧ a.stop = a.start + byteLength w := by
  have htake : ∀ {n : Nat} {cs w : List Char}, takeBytes? n cs = some w →
      (∃ r, cs = w ++ r) ∧ n = byteLength w := by
    intro n cs
    induction cs generalizing n with
    | nil =>
      intro w h
      cases n with
      | zero =>
        obtain rfl : w = [] := by simpa using h
        exact ⟨⟨[], rfl⟩, rfl⟩
      | succ n => simp [takeBytes?] at h
    | cons c cs ih =>
      intro w h
      cases n with
      | zero =>
        obtain rfl : w = [] := by simpa using h.symm
        exact ⟨⟨c :: cs, rfl⟩, rfl⟩
      | succ n =>
        rw [takeBytes?] at h
        split at h
        · obtain ⟨v, hv, rfl⟩ := Option.map_eq_some_iff.1 h
          obtain ⟨⟨r, rfl⟩, hn⟩ := ih hv
          exact ⟨⟨r, rfl⟩, by rw [byteLength_cons]; omega⟩
        · cases h
  unfold Source.slice? Text.slice? at h
  split at h
  · obtain ⟨cs, hcs, hw⟩ := Option.bind_eq_some_iff.1 h
    obtain ⟨⟨r, rfl⟩, hn⟩ := htake hw
    exact ⟨⟨r, hcs⟩, by omega⟩
  · cases h

end Transcribe.Text.Source

namespace Transcribe.Java

open Grammar
open Text (Span Source byteLength)

variable {w : List Char} {r : Rule} {span raw : Span} {ps : List Piece} {p : Piece}
  {parts : List (Derivation Rule)} {x : Peg Rule} {items : List Item}

/-! ## Tokens -/

namespace Spells

variable {r : Rule} {w : List Char}

theorem ne_nil (h : Spells r w) (hr : r.kind = .token) : w ≠ [] := by
  obtain ⟨m, c, parts, d, hm, hw, htakes⟩ := h
  obtain ⟨v, f, t, -, -, hv, rfl, -⟩ := token_edges hm hr htakes
  have hsame := hv.rest_eq
  rw [hw.rest_eq] at hsame
  rw [List.append_cancel_right hsame]
  simp

theorem calm (h : Spells r w) (hr : r.body.calm = true) : calm w = true := by
  obtain ⟨m, c, parts, d, hm, hw, htakes⟩ := h
  obtain ⟨v, hv, hcalm⟩ := htakes.calm hm hr
  have hsame := hv.rest_eq
  rw [hw.rest_eq] at hsame
  rwa [List.append_cancel_right hsame]

/-- A rule whose words have no brackets spells none. -/
theorem bare (h : Spells r w)
    (hr : r.body.each Text.isBare (fun p => Text.bracketChars.all fun b => !p b) = true) :
    Text.isBare w = true := by
  obtain ⟨m, c, parts, d, hm, hw, htakes⟩ := h
  obtain ⟨v, hv, hbare⟩ := htakes.each (P := fun w => Text.isBare w = true) rfl
    (fun _ _ => Text.isBare_append) (fun _ h => h)
    (fun _ _ hp hch => Text.isBare_of_class hp (by simpa using hch)) hm hr
  have hsame := hv.rest_eq
  rw [hw.rest_eq] at hsame
  rwa [List.append_cancel_right hsame]

/-- What a name is made of. -/
theorem identifier (h : Spells .identifier w) : w ≠ [] ∧ ∀ c ∈ w, isIdentChar c = true := by
  refine ⟨h.ne_nil rfl, ?_⟩
  obtain ⟨m, c, parts, d, hm, hw, htakes⟩ := h
  have hbody : Rule.grammar.body .identifier = .seq (.notAhead (.rule .keyword))
    (.seq (.one isIdentStart) (.many (.one isIdentChar))) := rfl
  rw [hbody] at htakes
  obtain ⟨_, mid, _, hahead, hrest⟩ := htakes.of_seq hm
  obtain ⟨rfl, -⟩ := hahead.of_notAhead
  obtain ⟨_, mid', _, hfirst, hmany⟩ := hrest.of_seq hm
  obtain ⟨ch, hch, hreach⟩ := hfirst.of_one
  obtain ⟨v, hv, hvchars⟩ : ∃ v, mid'.Reaches v d ∧ ∀ x ∈ v, isIdentChar x = true := by
    refine Takes.of_many (R := fun c d => ∃ v, c.Reaches v d ∧ ∀ x ∈ v, isIdentChar x = true) hm
      (fun c => ⟨[], .refl c, by simp⟩) (fun c ts d e hx ⟨v, hv, hchars⟩ => ?_) hmany
    obtain ⟨x, hx, hreach⟩ := hx.of_one
    exact ⟨[x] ++ v, hreach.trans hv, by simpa [hx] using hchars⟩
  have hsame := (hreach.trans hv).rest_eq
  rw [hw.rest_eq] at hsame
  rw [List.append_cancel_right hsame]
  have hstart : isIdentChar ch = true := by
    simp only [isIdentStart, isIdentChar, Bool.or_eq_true, Char.isAlphanum] at hch ⊢
    exact hch.imp_left (·.imp_left .inl)
  simpa [hstart] using hvchars

theorem quoted (h : Spells r w) (hr : isLiteral r = true) :
    ∃ q v, w = q :: v ∧ Text.isQuote q = true := by
  obtain ⟨m, c, parts, d, hm, hw, htakes⟩ := h
  have hquoted : ∀ {q v}, Text.isQuote q = true → c.Reaches (q :: v ++ [q]) d →
      ∃ q v, w = q :: v ∧ Text.isQuote q = true := by
    intro q v hq hv
    have hsame := hv.rest_eq
    rw [hw.rest_eq] at hsame
    exact ⟨q, v ++ [q], List.append_cancel_right hsame, hq⟩
  cases r <;> try cases hr
  · rw [body_charLiteral] at htakes
    obtain ⟨v, hv⟩ := quoted_of_takes hm htakes
    exact hquoted rfl hv
  · rw [body_stringLiteral] at htakes
    obtain ⟨v, hv⟩ := quoted_of_takes hm htakes
    exact hquoted rfl hv

end Spells

theorem ne_of_isIdentChar {c d : Char} (h : isIdentChar c = true) (hd : isIdentChar d = false) :
    c ≠ d := by
  rintro rfl
  rw [h] at hd
  cases hd

/-- A name is no quote, slash or space. -/
theorem calm_of_isIdentChar (h : ∀ c ∈ w, isIdentChar c = true) :
    calm w = true := by
  induction w with
  | nil => rfl
  | cons c w ih =>
    have hc := h c List.mem_cons_self
    have hcalm : calm [c] = true := by
      simp [Grammar.calm, Text.isQuote, ne_of_isIdentChar hc (d := '/') rfl,
        ne_of_isIdentChar hc (d := '\x22') rfl, ne_of_isIdentChar hc (d := '\x27') rfl]
    exact calm_append hcalm (ih fun d hd => h d (List.mem_cons_of_mem _ hd))

theorem isBare_of_isIdentChar (h : ∀ c ∈ w, isIdentChar c = true) :
    Text.isBare w = true := Text.isBare_of_class (by decide) h

theorem Spells.isBare (h : Spells .identifier w) : Text.isBare w = true :=
  isBare_of_isIdentChar h.identifier.2

variable {s : Source} {ls : List (Lexeme Rule)}

/-! ## Names and literals -/

theorem Good.name {n : SimpleName} (h : Good s ls (.expr (.name n))) :
    Spells .identifier n.text.toList := by
  obtain ⟨-, w, p, -, hspells, hp, hnode⟩ := h.token rfl rfl
  cases hp
  have hname : (⟨(Node.expr (.name n)).span, String.ofList w⟩ : SimpleName) = n := by
    simpa [Piece.node?, Node.ofName] using hnode
  rwa [← hname, String.toList_ofList]

section Literal

variable {span : Span} {kind : LiteralKind} {t : String} {r : Rule}

/-- A literal is a token of its rule. -/
theorem Good.literal_spells (h : Good s ls (.expr (.literal span kind t)))
    (hr : Node.rule? (.expr (.literal span kind t)) = some r) (hkind : r.kind = .token) :
    .token r span ∈ ls ∧ Spells r t.toList := by
  have hslice : s.slice? span = some t.toList := h.word rfl
  obtain ⟨hlex, w, p, htext, hspells, -, -⟩ := h.token hr hkind
  obtain rfl := Option.some.inj (htext.symm.trans hslice)
  exact ⟨hlex, hspells⟩

/-- The loop of a quoted literal ends where it does. -/
theorem Good.literal_quoted (h : Good s ls (.expr (.literal span kind t))) (hclear : Clear s ls)
    (hr : Node.rule? (.expr (.literal span kind t)) = some r) (hlit : isLiteral r = true)
    (hkind : r.kind = .token) : ∃ q v, t.toList = q :: v ∧ Text.isQuote q = true ∧
      loopEnd? s span.start = some (span.start + byteLength t.toList) := by
  have hslice : s.slice? span = some t.toList := h.word rfl
  obtain ⟨-, hstop⟩ := Source.exists_rest_of_slice? hslice
  obtain ⟨hlex, hspells⟩ := h.literal_spells hr hkind
  obtain ⟨q, v, hqv, hq⟩ := hspells.quoted hlit
  rw [← hstop]
  exact ⟨q, v, hqv, hq, loopEnd?_of_mem hclear.literals hlit hlex⟩

/-- A literal is passed over, or its loop ends where it does. -/
theorem Good.literal (h : Good s ls (.expr (.literal span kind t))) (hclear : Clear s ls) :
    calm t.toList = true ∧ t ≠ "" ∨ ∃ q v, t.toList = q :: v ∧ Text.isQuote q = true ∧
      loopEnd? s span.start = some (span.start + byteLength t.toList) := by
  have hcalm : ∀ {r}, Node.rule? (.expr (.literal span kind t)) = some r → r.kind = .token →
      r.body.calm = true → calm t.toList = true ∧ t ≠ "" := by
    intro r hr hkind hbody
    obtain ⟨-, hspells⟩ := h.literal_spells hr hkind
    exact ⟨hspells.calm hbody, by simpa using hspells.ne_nil hkind⟩
  cases kind with
  | integer | float | boolean | null => exact .inl (hcalm rfl rfl (by decide))
  | character | string => exact .inr (h.literal_quoted hclear rfl rfl rfl)

/-- A literal has no brackets, or they stand between its quotes. -/
theorem Good.literal_brackets (h : Good s ls (.expr (.literal span kind t))) (hclear : Clear s ls) :
    Text.Scan.brackets .code t.toList = [] := by
  have hquoted : (∃ q v, t.toList = q :: v ∧ Text.isQuote q = true ∧
      loopEnd? s span.start = some (span.start + byteLength t.toList)) →
      Text.Scan.brackets .code t.toList = [] := by
    rintro ⟨q, v, ht, hq, hloop⟩
    obtain ⟨⟨rest, hrest⟩, -⟩ :=
      Source.exists_rest_of_slice? (h.word rfl : s.slice? span = some t.toList)
    rw [ht] at hrest hloop ⊢
    have hlength := literalLength_of_loopEnd? hrest hloop
    obtain ⟨-, -, -, hnone⟩ := Text.commentsFrom_literal hq hlength 0
    have hopens : Text.Scan.opens q = .literal q ∧ Text.isBracket q = false := by
      have hq : q = '\x22' ∨ q = '\x27' := by simpa [Text.isQuote] using hq
      rcases hq with rfl | rfl <;> exact ⟨rfl, rfl⟩
    rw [Text.Scan.brackets_cons_of_not hopens.2, Text.Scan.next, hopens.1, hnone]
  cases kind with
  | integer | float | boolean | null =>
    exact Text.Scan.brackets_of_isBare ((h.literal_spells rfl rfl).2.bare (by decide))
  | character | string => exact hquoted (h.literal_quoted hclear rfl rfl rfl)

end Literal

/-! ## Dotted names -/

namespace Piece

/-- The rule of pieces that only one rule makes. -/
def maker? : Piece → Option Rule
  | .name _ => some .identifier
  | .path _ => some .qualifiedName
  | .modifier (.keyword _ _) => some .modifier
  | .modifier (.tag _ _) => some .tag
  | .declared _ _ => some .localsDeclaration
  | _ => none

theorem rule_of_maker? {r' : Rule} {text : List Char} (h : assemble? r span text ps = some p)
    (hp : p.maker? = some r') : r = r' := by
  unfold assemble? at h
  cases r
  all_goals dsimp only at h
  case postfixExpression =>
    split at h
    · split at h
      · cases h
        cases hp
      · cases h
    · cases h
  case forInit =>
    split at h
    · cases h
      cases hp
    · obtain ⟨_, -, rfl⟩ := Option.map_eq_some_iff.1 h
      cases hp
  case binaryExpression =>
    split at h
    · obtain ⟨_, -, rfl⟩ := Option.map_eq_some_iff.1 h
      cases hp
    · cases h
  case identifier | qualifiedName | modifier | localsDeclaration =>
    first
    | (cases h; cases hp; rfl)
    | (obtain ⟨_, -, rfl⟩ := Option.map_eq_some_iff.1 h; cases hp; rfl)
  case tag =>
    split at h
    · cases h
      cases hp
      rfl
    · cases h
  all_goals first
    | (cases h; done)
    | (cases h; cases hp)
    | (obtain ⟨_, -, rfl⟩ := Option.map_eq_some_iff.1 h; cases hp)
    | (split at h <;> cases h <;> cases hp)

end Piece

/-- A piece that only one rule makes comes from a match of that rule. -/
theorem Grown.maker {i : Item} (h : Grown s ls i) (hp : p ∈ i.pieces) (hr : p.maker? = some r) :
    ∃ raw parts text ps, i = ⟨.node r raw parts, i.span, [p]⟩ ∧
      Piece.assemble? r i.span text ps = some p := by
  have hcases : ∀ {r' span text ps qs}, piecesFor r' span text ps = some qs → p ∈ qs →
      r' = r ∧ qs = [p] ∧ Piece.assemble? r span text ps = some p := by
    intro r' span text ps qs hqs hp
    unfold piecesFor at hqs
    split at hqs
    · obtain rfl : [] = qs := by simpa using hqs
      cases hp
    · obtain ⟨q, hq, rfl⟩ := Option.map_eq_some_iff.1 hqs
      obtain rfl := List.mem_singleton.1 hp
      obtain rfl := Piece.rule_of_maker? hq hr
      exact ⟨rfl, rfl, hq⟩
  cases h with
  | word => cases hp
  | token _ _ _ _ _ hps =>
    obtain ⟨rfl, rfl, hpiece⟩ := hcases hps hp
    exact ⟨_, _, _, _, rfl, hpiece⟩
  | tree _ _ _ _ _ _ hps =>
    obtain ⟨rfl, rfl, hpiece⟩ := hcases hps hp
    exact ⟨_, _, _, _, rfl, hpiece⟩

/-- The text of a token that one piece was made of. -/
theorem Grown.token_ok (h : Grown s ls ⟨.node r raw parts, span, ps⟩) (hr : r.kind = .token) :
    ∃ w, s.slice? span = some w ∧ Spells r w ∧ piecesFor r span w [] = some ps := by
  cases h with
  | token _ _ _ htext hspells hps => exact ⟨_, htext, hspells, hps⟩
  | tree hkind => rw [hr] at hkind; cases hkind

theorem Grown.name {i : Item} {n : SimpleName} (h : Grown s ls i) (hn : .name n ∈ i.pieces) :
    Spells .identifier n.text.toList := by
  obtain ⟨raw, parts, -, -, hi, -⟩ := h.maker hn rfl
  rw [hi] at h
  obtain ⟨w, -, hspells, hps⟩ := h.token_ok rfl
  have hps : some [Piece.name ⟨i.span, String.ofList w⟩] = some [.name n] := hps
  cases hps
  rwa [String.toList_ofList]

/-- The match of a tree rule that one piece was made of. -/
theorem Grown.tree_ok (h : Grown s ls ⟨.node r raw parts, span, [p]⟩) (hr : r.kind = .tree) :
    ∃ items text, Forms r.body items ∧ items ≠ [] ∧ span = hull items ∧
      Linked s span.start items span.stop ∧ (∀ i ∈ items, Grown s ls i) ∧
      Piece.assemble? r span text (items.flatMap (·.pieces)) = some p := by
  cases h with
  | token hkind => rw [hr] at hkind; cases hkind
  | @tree _ _ _ text _ items _ hforms hlinked hne hparts _ hps =>
    have hpiece : Piece.assemble? r (hull items) text (items.flatMap (·.pieces)) = some p := by
      unfold piecesFor at hps
      split at hps
      · cases hps
      · simpa using hps
    exact ⟨items, text, hforms, hne, rfl, hlinked.tight hne, hparts, hpiece⟩

theorem exists_mem_of_mapM {α β : Type} {f : α → Option β} {as : List α} {bs : List β}
    (h : as.mapM f = some bs) {b : β} (hb : b ∈ bs) : ∃ a ∈ as, f a = some b := by
  induction as generalizing bs with
  | nil =>
    obtain rfl : bs = [] := by simpa using h.symm
    cases hb
  | cons a as ih =>
    simp only [List.mapM_cons, Option.bind_eq_bind, Option.bind_eq_some_iff, Option.pure_def,
      Option.some.injEq] at h
    obtain ⟨b', hb', bs', hbs', rfl⟩ := h
    rcases List.mem_cons.1 hb with rfl | hb
    · exact ⟨a, by simp, hb'⟩
    · obtain ⟨a', ha', hfa'⟩ := ih hbs' hb
      exact ⟨a', by simp [ha'], hfa'⟩

/-- The segments of a dotted name are names. -/
theorem Grown.path {i : Item} {n : Name} (h : Grown s ls i) (hn : .path n ∈ i.pieces) :
    ∀ x ∈ n.segments, Spells .identifier x.text.toList := by
  obtain ⟨raw, parts, -, -, hi, -⟩ := h.maker hn rfl
  rw [hi] at h
  obtain ⟨items, text, -, -, -, -, hparts, hpiece⟩ := h.tree_ok rfl
  obtain ⟨ns, hns, hpath⟩ := Option.map_eq_some_iff.1
    (show ((items.flatMap (·.pieces)).mapM Piece.name?).map (fun ns => Piece.path ⟨i.span, ns⟩)
      = some (.path n) from hpiece)
  cases hpath
  intro x hx
  obtain ⟨p, hp, hname⟩ := exists_mem_of_mapM hns hx
  obtain ⟨item, hitem, hp⟩ := List.mem_flatMap.1 hp
  cases p with
  | name m =>
    cases hname
    exact (hparts item hitem).name hp
  | _ => cases hname

theorem Good.segments {t : SimpleType} (h : Good s ls (.type (.simple t))) :
    ∀ x ∈ t.name.segments, Spells .identifier x.text.toList := by
  obtain ⟨raw, parts, p, hnode, hgrown⟩ := h.born .qualifiedName rfl
  obtain ⟨items, text, -, -, -, -, -, hpiece⟩ := hgrown.tree_ok rfl
  obtain ⟨ns, -, rfl⟩ := Option.map_eq_some_iff.1
    (show ((items.flatMap (·.pieces)).mapM Piece.name?).map (fun ns => Piece.path ⟨t.span, ns⟩)
      = some p from hpiece)
  have hname : (⟨t.span, ⟨t.span, ns⟩⟩ : SimpleType) = t := by simpa [Piece.node?] using hnode
  rw [← hname]
  exact hgrown.path List.mem_cons_self

/-- Taking a mark off the front leaves pieces that were there. -/
theorem Piece.mem_of_mem_takeMark (h : p ∈ (takeMark r ps).2) : p ∈ ps := by
  unfold takeMark at h
  split at h
  · split at h
    · exact List.mem_cons_of_mem _ h
    · exact h
  · exact h

theorem Good.packageName {p : Package} (h : Good s ls (.package p)) :
    ∀ x ∈ p.name.segments, Spells .identifier x.text.toList := by
  obtain ⟨raw, parts, q, hnode, hgrown⟩ := h.born .packageDeclaration rfl
  obtain ⟨items, text, -, -, -, -, hparts, hpiece⟩ := hgrown.tree_ok rfl
  have hpath : .path p.name ∈ items.flatMap (·.pieces) := by
    unfold Piece.assemble? at hpiece
    dsimp only at hpiece
    split at hpiece
    · rename_i n hn
      cases hpiece
      have hname : n = p.name := congrArg Package.name (Node.package.inj (Option.some.inj hnode))
      rw [hn, hname]
      exact List.mem_singleton_self _
    · cases hpiece
  obtain ⟨i, hi, hpath⟩ := List.mem_flatMap.1 hpath
  exact (hparts i hi).path hpath

theorem Piece.path_of_importing? {i : Import} (h : importing? span ps = some i) :
    .path i.name ∈ ps := by
  unfold importing? at h
  split at h
  · rename_i isStatic n rest htake
    split at h
    · have hn : n = i.name := congrArg Import.name (Option.some.inj h)
      refine mem_of_mem_takeMark (r := .importStatic) ?_
      rw [htake, ← hn]
      exact List.mem_cons_self
    · cases h
  · cases h

theorem Good.importName {i : Import} (h : Good s ls (.importing i)) :
    ∀ x ∈ i.name.segments, Spells .identifier x.text.toList := by
  obtain ⟨raw, parts, q, hnode, hgrown⟩ := h.born .importDeclaration rfl
  obtain ⟨items, text, -, -, -, -, hparts, hpiece⟩ := hgrown.tree_ok rfl
  obtain ⟨i', hi', rfl⟩ := Option.map_eq_some_iff.1
    (show (Piece.importing? i.span (items.flatMap (·.pieces))).map Piece.importing = some q from hpiece)
  obtain rfl : i' = i := by simpa [Piece.node?] using hnode
  obtain ⟨item, hitem, hpath⟩ := List.mem_flatMap.1 (Piece.path_of_importing? hi')
  exact (hparts item hitem).path hpath

/-! ## Where types begin -/

def NamedAt (s : Source) (o : Nat) : Prop := ∃ c r, s.rest? o = some (c :: r) ∧ isIdentChar c = true

theorem namedAt_of_slice? (h : s.slice? span = some w) (hne : w ≠ [])
    (hw : ∀ c ∈ w, isIdentChar c = true) : NamedAt s span.start := by
  obtain ⟨⟨r, hr⟩, -⟩ := Source.exists_rest_of_slice? h
  cases w with
  | nil => exact absurd rfl hne
  | cons c w => exact ⟨c, w ++ r, hr, hw c List.mem_cons_self⟩

/-- A node that begins with a node of another rule begins where that begins. -/
theorem Grown.first (h : Grown s ls ⟨.node r raw parts, span, ps⟩) (hr : r.kind = .tree)
    {y : Peg Rule} (hbody : r.body = .seq x y) (hx : yields x = true) :
    ∃ i is, Forms x (i :: is) ∧ Grown s ls i ∧ i.span.start = span.start := by
  cases h with
  | token hkind => rw [hr] at hkind; cases hkind
  | @tree _ _ _ text _ items _ hforms hlinked hne hparts _ hps =>
    rw [hbody] at hforms
    cases hforms with
    | @seq _ _ is js hx' _ =>
      cases is with
      | nil => exact absurd rfl (hx'.ne_nil hx)
      | cons i is =>
        exact ⟨i, is, hx', hparts i (by simp), rfl⟩

theorem Grown.namedAt_of_identifier (h : Grown s ls ⟨.node .identifier raw parts, span, ps⟩) :
    NamedAt s span.start := by
  obtain ⟨w, htext, hspells, -⟩ := h.token_ok rfl
  exact namedAt_of_slice? htext hspells.identifier.1 hspells.identifier.2

theorem Grown.namedAt_of_qualifiedName (h : Grown s ls ⟨.node .qualifiedName raw parts, span, ps⟩) :
    NamedAt s span.start := by
  obtain ⟨i, is, hforms, hfirst, hstart⟩ := h.first rfl rfl rfl
  rw [← hstart]
  cases hforms with
  | rule => exact hfirst.namedAt_of_identifier

theorem Grown.namedAt_of_classType (h : Grown s ls ⟨.node .classType raw parts, span, ps⟩) :
    NamedAt s span.start := by
  obtain ⟨i, is, hforms, hfirst, hstart⟩ := h.first rfl rfl rfl
  rw [← hstart]
  cases hforms with
  | rule => exact hfirst.namedAt_of_qualifiedName

theorem Grown.namedAt_of_primitiveType (h : Grown s ls ⟨.node .primitiveType raw parts, span, ps⟩) :
    NamedAt s span.start := by
  obtain ⟨w, htext, hspells, -⟩ := h.token_ok rfl
  have hwords : primitiveWords.all (fun w => w != "" && w.toList.all isIdentChar) = true := by
    decide +kernel
  have hword := List.all_eq_true.1 hwords _ (hspells.of_wholeWord rfl)
  simp only [Bool.and_eq_true, bne_iff_ne, String.toList_ofList, List.all_eq_true] at hword
  exact namedAt_of_slice? htext (by simpa using hword.1) hword.2

/-- A type begins as a name does. -/
theorem Good.namedAt {t : Ty} (h : Good s ls (.type t)) : NamedAt s t.span.start := by
  cases t with
  | primitive span k =>
    have hword : Java.word k ≠ "" ∧ (Java.word k).toList.all isIdentChar = true := by
      cases k <;> decide +kernel
    exact namedAt_of_slice? (h.word rfl) (by simpa using hword.1) (List.all_eq_true.1 hword.2)
  | simple t =>
    obtain ⟨raw, parts, p, -, hgrown⟩ := h.born _ rfl
    exact hgrown.namedAt_of_qualifiedName
  | array span element dims =>
    obtain ⟨raw, parts, p, -, hgrown⟩ := h.born _ rfl
    obtain ⟨i, is, hforms, hfirst, hstart⟩ := hgrown.first rfl rfl rfl
    rw [show (Ty.array span element dims).span.start = i.span.start from hstart.symm]
    cases hforms with
    | left hforms =>
      cases hforms with
      | rule => exact hfirst.namedAt_of_primitiveType
    | right hforms =>
      cases hforms with
      | rule => exact hfirst.namedAt_of_classType
  | generic span base arguments =>
    obtain ⟨raw, parts, p, -, hgrown⟩ := h.born _ rfl
    exact hgrown.namedAt_of_classType

/-! ## Modifiers -/

def Chained (s : Source) : Nat → List Modifier → Prop
  | _, [] => True
  | o, m :: ms => m.span.start = o ∧ Chained s (s.skipSpace false m.span.stop) ms

/-- The nodes that a match of an expression is made of are of rules that it names. -/
theorem Forms.rule_mem (h : Forms x items) (hi : ⟨.node r raw parts, span, ps⟩ ∈ items) :
    r ∈ x.rules := by
  induction h with
  | word | words => simp at hi
  | rule =>
    cases List.mem_singleton.1 hi
    exact List.mem_singleton.2 rfl
  | seq _ _ ihx ihy =>
    exact List.mem_append.2 ((List.mem_append.1 hi).imp ihx ihy)
  | left _ ih => exact List.mem_append_left _ (ih hi)
  | right _ ih => exact List.mem_append_right _ (ih hi)
  | present _ ih => exact ih hi
  | many _ _ ihx ih => exact (List.mem_append.1 hi).elim ihx ih
  | absent | never | ahead | notAhead => cases hi

theorem Piece.takeModifiers_of_none (h : ∀ m, .modifier m ∉ ps) :
    (takeModifiers ps).1 = [] := by
  cases ps with
  | nil => rfl
  | cons p ps =>
    cases p with
    | modifier m => exact absurd List.mem_cons_self (h m)
    | _ => rfl

/-- What an expression that names no modifiers matches has none. -/
theorem Forms.no_modifier (h : Forms x items) (hgrown : ∀ i ∈ items, Grown s ls i)
    (hx : .modifier ∉ x.rules ∧ .tag ∉ x.rules) (m : Modifier) :
    .modifier m ∉ items.flatMap (·.pieces) := by
  intro hm
  obtain ⟨i, hi, hm⟩ := List.mem_flatMap.1 hm
  cases m with
  | keyword span k =>
    obtain ⟨raw, parts, -, -, hmade, -⟩ := (hgrown i hi).maker hm rfl
    rw [hmade] at hi
    exact hx.1 (h.rule_mem hi)
  | tag span n =>
    obtain ⟨raw, parts, -, -, hmade, -⟩ := (hgrown i hi).maker hm rfl
    rw [hmade] at hi
    exact hx.2 (h.rule_mem hi)

/-- A modifier is one item. -/
theorem Forms.modifier (h : Forms (.alt (.rule .modifier) (.rule .tag)) items)
    (hgrown : ∀ i ∈ items, Grown s ls i) :
    ∃ i m, items = [i] ∧ i.pieces = [.modifier m] ∧ m.span = i.span := by
  have hspan : ∀ {i m}, Grown s ls i → i.pieces = [.modifier m] → m.span = i.span := by
    intro i m hi hm
    exact (fits_of_grown hi (.modifier m) (by simp [hm])).span? m.span rfl
  cases h with
  | left h =>
    cases h with
    | @rule _ raw sp parts ps =>
      have hi := hgrown _ List.mem_cons_self
      obtain ⟨w, -, -, hps⟩ := hi.token_ok rfl
      obtain ⟨p, hp, rfl⟩ := Option.map_eq_some_iff.1 hps
      obtain ⟨k, -, rfl⟩ := Option.map_eq_some_iff.1 hp
      exact ⟨_, _, rfl, rfl, hspan hi rfl⟩
  | right h =>
    cases h with
    | @rule _ raw sp parts ps =>
      have hi := hgrown _ List.mem_cons_self
      obtain ⟨hplain, -⟩ | ⟨-, p, rfl⟩ := hi.pieces
      · cases hplain
      · obtain ⟨items, text, -, -, -, -, -, hpiece⟩ := hi.tree_ok rfl
        have hmade : ∃ m, p = .modifier m := by
          unfold Piece.assemble? at hpiece
          dsimp only at hpiece
          split at hpiece
          · cases hpiece
            exact ⟨_, rfl⟩
          · cases hpiece
        obtain ⟨m, rfl⟩ := hmade
        exact ⟨_, m, rfl, rfl, hspan hi rfl⟩

/-- The modifiers in front of a declaration stand one behind the other. -/
theorem Forms.chained {o d : Nat} (h : Forms (.seq Rule.modifierList x) items)
    (hx : .modifier ∉ x.rules ∧ .tag ∉ x.rules) (hlinked : Linked s o items d)
    (hgrown : ∀ i ∈ items, Grown s ls i) :
    Chained s (s.skipSpace false o) (Piece.takeModifiers (items.flatMap (·.pieces))).1 := by
  cases h with
  | @seq _ _ is js his hjs =>
    rw [Rule.modifierList] at his
    generalize hmany : Peg.many (.alt (.rule Rule.modifier) (.rule .tag)) = e at his
    induction his generalizing o with
    | never =>
      rw [List.nil_append] at hgrown ⊢
      rw [Piece.takeModifiers_of_none (hjs.no_modifier hgrown hx)]
      trivial
    | @many y is₁ is₂ hfirst _ _ ih =>
      cases hmany
      obtain ⟨i, m, rfl, hpieces, hspan⟩ :=
        hfirst.modifier fun i hi => hgrown i (by simp [List.mem_append.2 (.inl hi)])
      obtain ⟨hgap, hsolid, hrest⟩ := hlinked
      have hnext := ih hrest (fun k hk => hgrown k (List.mem_cons_of_mem _ hk)) rfl
      rw [List.append_assoc, List.singleton_append, List.flatMap_cons, hpieces,
        List.singleton_append, Piece.takeModifiers]
      refine ⟨?_, ?_⟩
      · rw [hspan, ← hsolid.start, Source.skipSpace_eq_of_inGap hgap.inGap]
      · rw [hspan]
        exact hnext
    | _ => cases hmany

def Node.modifiers : Node → List Modifier
  | .decl d => d.head.modifiers
  | .method m => m.modifiers
  | .field f => f.vars.modifiers
  | .parameter p => p.modifiers
  | .locals _ v | .stmt (.locals _ v) => v.modifiers
  | _ => []

def Rule.isDeclaring : Rule → Bool
  | .typeDeclaration | .methodDeclaration | .fieldDeclaration | .formalParameter
  | .localsDeclaration => true
  | _ => false

theorem Rule.body_of_isDeclaring (h : r.isDeclaring = true) :
    r.kind = .tree ∧ ∃ x, r.body = .seq modifierList x ∧ .modifier ∉ x.rules ∧ .tag ∉ x.rules := by
  unfold isDeclaring at h
  split at h
  all_goals first
    | exact ⟨rfl, _, rfl, by decide⟩
    | cases h

namespace Piece

theorem modifiers_of_declared? {v : Variables} (h : declared? ps = some v) :
    v.modifiers = (takeModifiers ps).1 := by
  unfold declared? at h
  split at h
  · rename_i htake
    obtain ⟨fragments, -, rfl⟩ := Option.map_eq_some_iff.1 h
    rw [htake]
  · cases h

theorem modifiers_of_typeMember? {m : Member} (h : typeMember? span ps = some m) :
    (Node.ofMember m).modifiers = (takeModifiers ps).1 := by
  unfold typeMember? at h
  split at h
  · rename_i htake
    dsimp only at h
    split at h
    · cases h
      rw [htake]
      rfl
    · cases h
  · cases h

theorem modifiers_of_method? {m : Method} (h : method? span ps = some m) :
    m.modifiers = (takeModifiers ps).1 := by
  unfold method? at h
  dsimp only at h
  split at h
  · split at h <;> cases h <;> rfl
  · cases h

theorem modifiers_of_parameterOf? {p : Parameter} (h : parameterOf? span ps = some p) :
    p.modifiers = (takeModifiers ps).1 := by
  unfold parameterOf? at h
  split at h
  · rename_i htake
    split at h
    · cases h
      rw [htake]
    · cases h
  · cases h

theorem modifiers_of_assemble? {text : List Char} {n : Node} (h : assemble? r span text ps = some p)
    (hn : p.node? = some n) (hr : r.isDeclaring = true) : n.modifiers = (takeModifiers ps).1 := by
  unfold assemble? at h
  unfold Rule.isDeclaring at hr
  split at hr
  case h_6 => cases hr
  all_goals
    dsimp only at h
    obtain ⟨x, hx, rfl⟩ := Option.map_eq_some_iff.1 h
    cases hn
  · exact modifiers_of_typeMember? hx
  · exact modifiers_of_method? hx
  · exact modifiers_of_declared? hx
  · exact modifiers_of_parameterOf? hx
  · exact modifiers_of_declared? hx

end Piece

theorem Grown.chain {n : Node} (h : Grown s ls ⟨.node r raw parts, span, [p]⟩)
    (hr : r.isDeclaring = true) (hn : p.node? = some n) (hsolid : s.Solid span) :
    Chained s span.start n.modifiers := by
  obtain ⟨hkind, x, hbody, hx⟩ := Rule.body_of_isDeclaring hr
  obtain ⟨items, text, hforms, -, -, hlinked, hparts, hpiece⟩ := h.tree_ok hkind
  rw [hbody] at hforms
  have hchained := hforms.chained hx hlinked hparts
  rwa [hsolid.start, ← Piece.modifiers_of_assemble? hpiece hn hr] at hchained

/-- A statement that declares variables begins where their declaration does. -/
theorem Grown.chain_statement {sp : Span} {v : Variables}
    (h : Grown s ls ⟨.node .localsStatement raw parts, span, [p]⟩)
    (hn : p.node? = some (.stmt (.locals sp v))) : Chained s span.start v.modifiers := by
  obtain ⟨items, text, hforms, -, hspan, hlinked, hparts, hpiece⟩ := h.tree_ok rfl
  cases hforms with
  | seq hfirst hsemicolon =>
    cases hfirst with
    | @rule _ raw' sp' parts' ps =>
      cases hsemicolon with
      | word =>
        have hitem := hparts _ List.mem_cons_self
        obtain ⟨hplain, -⟩ | ⟨-, q, rfl⟩ := hitem.pieces
        · cases hplain
        · have hq : ∃ a, q = .declared a v := by
            unfold Piece.assemble? at hpiece
            dsimp only at hpiece
            split at hpiece
            · rename_i a v' hq
              cases hpiece
              cases hn
              exact ⟨a, (List.cons.inj hq).1⟩
            · cases hpiece
          obtain ⟨a, rfl⟩ := hq
          rw [hspan]
          exact hitem.chain (n := .locals a v) rfl rfl hlinked.2.1

/-- The modifiers of a declaration stand one behind the other from where it begins. -/
theorem Good.chain {n : Node} (h : Good s ls n) : Chained s n.span.start n.modifiers := by
  have hdeclaring : ∀ {r}, n.rule? = some r → r.isDeclaring = true →
      Chained s n.span.start n.modifiers := by
    intro r hr hd
    obtain ⟨raw, parts, p, hnode, hgrown⟩ := h.born r hr
    exact hgrown.chain hd hnode h.solid
  cases n with
  | decl d | method m | field f | parameter q | locals span v => exact hdeclaring rfl rfl
  | stmt t =>
    cases t with
    | locals span v =>
      obtain ⟨raw, parts, p, hnode, hgrown⟩ := h.born .localsStatement rfl
      exact hgrown.chain_statement hnode
    | _ => trivial
  | _ => trivial

end Transcribe.Java
