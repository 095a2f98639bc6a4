/-
  Transcribe.Proofs.Dims — how many dimensions a type or variable is given.

  The brackets behind a type, a name or an array creation are counted in their text, and that text
  has the comments between the brackets in it, and behind a single pair those before the next token.

  Counting a character in the text of a match is counting it in the words, nodes and comments the
  match is made of (`countIn`, `tally`). The rule of the brackets is made of the two brackets alone
  (`Peg.spelledBy`), so in its text an opening bracket is a token or stands in a comment. A node
  that has dimensions stems from a match whose parts are counted so (`Stems`): a match of brackets
  for its pairs and for the brackets in its comments, any other part for nothing (`dimsCounted`).
  - `count_of_takes`: the occurrences of a character in a match are those in its words, nodes and
    comments.
  - `dims_of_parse`: so a node has a dimension for each pair of brackets of its own rule's match,
    and one more for each opening bracket in a comment there.
-/

import Transcribe.Proofs.Origin

namespace Transcribe

variable {c d : Cursor} {m : Mode} {ps : List Piece}

def tally {α : Type} (f : α → Nat) (as : List α) : Nat := as.foldr (fun a n => f a + n) 0

section Tally

variable {α : Type} {f g : α → Nat}

@[simp] theorem tally_nil : tally f [] = 0 := rfl

@[simp] theorem tally_cons (a : α) (as : List α) : tally f (a :: as) = f a + tally f as := rfl

@[simp] theorem tally_append (as bs : List α) : tally f (as ++ bs) = tally f as + tally f bs := by
  induction as with
  | nil => simp
  | cons a as ih => simp [ih, Nat.add_assoc]

end Tally

namespace Grammar

open Text (Span Source)

variable {ρ : Type}

/-! ## Characters of a match -/

def countIn (s : Source) (ch : Char) (t : Derivation ρ) : Nat :=
  ((s.slice? t.span).getD []).count ch

variable {g : Rules ρ} {s : Source} {ch : Char}

theorem countIn_of_reaches {w : List Char} {t : Derivation ρ} (hc : c.On s) (h : c.Reaches w d)
    (ht : t.span = ⟨c.offset, d.offset⟩) : countIn s ch t = w.count ch := by
  unfold Cursor.On at hc
  rw [h.rest_eq] at hc
  rw [countIn, ht, Source.slice?_eq_some hc h.offset_eq, Option.getD_some]

theorem count_of_gapTo {ss : List Span} (hch : isGapChar ch = false) (hc : c.On s)
    (h : GapTo c ss d) :
    ∃ w, c.Reaches w d ∧ w.count ch = tally (countIn s ch) (ss.map (.comment : Span → Derivation ρ)) := by
  induction h with
  | done => exact ⟨[], .refl _, rfl⟩
  | @blank o b cs ss d hb _ ih =>
    have hstep : Cursor.Reaches ⟨o, b :: cs⟩ [b] ⟨o + 1, cs⟩ :=
      ⟨rfl, by simp [utf8Size_of_isGapChar hb]⟩
    obtain ⟨w, hw, hcount⟩ := ih (hstep.on hc)
    refine ⟨[b] ++ w, hstep.trans hw, ?_⟩
    have hne : b ≠ ch := fun h => by rw [h, hch] at hb; cases hb
    simp [hcount, hne]
  | @comment o v cs ss d _ _ ih =>
    have hstep : Cursor.Reaches ⟨o, v ++ cs⟩ v ⟨o + Text.byteLength v, cs⟩ := ⟨rfl, rfl⟩
    obtain ⟨w, hw, hcount⟩ := ih (hstep.on hc)
    refine ⟨v ++ w, hstep.trans hw, ?_⟩
    have hv : countIn s ch (.comment ⟨o, o + Text.byteLength v⟩ : Derivation ρ) = v.count ch :=
      countIn_of_reaches hc hstep rfl
    simp [hcount, hv]

theorem count_of_gapLeaves (ρ : Type) (hm : m.token = false) (hch : isGapChar ch = false)
    (hc : c.On s) : ∃ w, c.Reaches w (m.gap c).2 ∧
      w.count ch = tally (countIn s ch) (m.gapLeaves c : List (Derivation ρ)) := by
  rw [Mode.gapLeaves, Mode.gap_of_tree hm]
  exact count_of_gapTo hch hc (gapTo_gap c)

/-- The occurrences of a character in a match are those in its words, nodes and comments. -/
theorem count_of_takes {k : Trial ρ} {ts : List (Derivation ρ)} (hm : m.token = false)
    (hch : isGapChar ch = false) (h : Takes g m k c ts d) (hc : c.On s) :
    ∃ w, c.Reaches w d ∧ w.count ch = tally (countIn s ch) ts := by
  have hjoin : ∀ {v w : List Char} {ts us : List (Derivation ρ)},
      v.count ch = tally (countIn s ch) ts → w.count ch = tally (countIn s ch) us →
      (v ++ w).count ch = tally (countIn s ch) (ts ++ us) := by
    intro v w ts us hv hw
    rw [List.count_append, tally_append, hv, hw]
  have hleaf : ∀ {m : Mode} {c d : Cursor} {w : List Char}, m.token = false → c.On s →
      c.Reaches w d →
      w.count ch = tally (countIn s ch) (m.leaf ⟨c.offset, d.offset⟩ : List (Derivation ρ)) := by
    intro m c d w hm hc hw
    have hword : countIn s ch (.word ⟨c.offset, d.offset⟩ : Derivation ρ) = w.count ch :=
      countIn_of_reaches hc hw rfl
    simp [Mode.leaf, hm, hword]
  induction h with
  | word h | words _ h =>
    have hw := reaches_of_afterWord? h
    exact ⟨_, hw, hleaf hm hc hw⟩
  | @one m p o b rest h =>
    have hw : Cursor.Reaches ⟨o, b :: rest⟩ [b] ⟨o + b.utf8Size, rest⟩ := ⟨rfl, by simp⟩
    exact ⟨_, hw, hleaf hm hc hw⟩
  | startOfText | endOfText | absent | never | ahead | notAhead | done => exact ⟨[], .refl _, rfl⟩
  | @rule m r c parts d h =>
    obtain ⟨w, hw⟩ := h.reaches
    exact ⟨w, hw, by simp [hm, countIn_of_reaches (t := .node r _ parts) hc hw rfl]⟩
  | left _ ih | right _ _ ih | present _ ih => exact ih hm hc
  | seq _ _ ihx ihy =>
    obtain ⟨u, hu, hcu⟩ := ihx hm hc
    obtain ⟨v, hv, hcv⟩ := count_of_gapLeaves ρ hm hch (hu.on hc)
    obtain ⟨w, hw, hcw⟩ := ihy hm (hv.on (hu.on hc))
    exact ⟨u ++ v ++ w, (hu.trans hv).trans hw, hjoin (hjoin hcu hcv) hcw⟩
  | many _ _ ihx ih =>
    obtain ⟨u, hu, hcu⟩ := ihx hm hc
    obtain ⟨w, hw, hcw⟩ := ih hm (hu.on hc)
    exact ⟨u ++ w, hu.trans hw, hjoin hcu hcw⟩
  | again _ _ ihx ih =>
    obtain ⟨u, hu, hcu⟩ := count_of_gapLeaves ρ hm hch hc
    obtain ⟨v, hv, hcv⟩ := ihx hm (hu.on hc)
    obtain ⟨w, hw, hcw⟩ := ih hm (hv.on (hu.on hc))
    exact ⟨u ++ v ++ w, (hu.trans hv).trans hw, hjoin (hjoin hcu hcv) hcw⟩

def Peg.spelledBy (ws : List (List Char)) : Peg ρ → Bool
  | .word w => ws.contains w
  | .seq a b => a.spelledBy ws && b.spelledBy ws
  | .many a => a.spelledBy ws
  | _ => false

/-- What a match of words is made of. -/
theorem parts_of_spelledBy {k : Trial ρ} {ts : List (Derivation ρ)} {ws : List (List Char)}
    (hm : m.token = false) (h : Takes g m k c ts d) (hk : k.peg.spelledBy ws = true) (hc : c.On s) :
    ∀ t ∈ ts, (∃ sp, t = .comment sp) ∨ ∃ sp, t = .word sp ∧ ∃ w ∈ ws, s.slice? sp = some w := by
  have hgap : ∀ (m : Mode) (c : Cursor), ∀ t ∈ (m.gapLeaves c : List (Derivation ρ)),
      (∃ sp, t = .comment sp) ∨ ∃ sp, t = .word sp ∧ ∃ w ∈ ws, s.slice? sp = some w := by
    intro m c t ht
    obtain ⟨sp, -, rfl⟩ := List.mem_map.1 ht
    exact .inl ⟨sp, rfl⟩
  induction h with
  | @word m w c rest h =>
    intro t ht
    obtain rfl : t = .word ⟨c.offset, c.offset + Text.byteLength w⟩ := by
      simpa [Mode.leaf, hm] using ht
    have hw := reaches_of_afterWord? h
    unfold Cursor.On at hc
    rw [hw.rest_eq] at hc
    exact .inr ⟨_, rfl, w, by simpa [Trial.peg, Peg.spelledBy] using hk,
      Source.slice?_eq_some hc rfl⟩
  | words | one | startOfText | endOfText | rule | left | right | absent | present | ahead
    | notAhead => cases hk
  | never | done => simp
  | seq hx _ ihx ihy =>
    obtain ⟨hxk, hyk⟩ := Bool.and_eq_true_iff.1 hk
    obtain ⟨u, hu⟩ := hx.reaches
    obtain ⟨v, hv⟩ := Mode.gap_reaches _ _
    intro t ht
    simp only [List.mem_append] at ht
    rcases ht with (ht | ht) | ht
    · exact ihx hm hxk hc t ht
    · exact hgap _ _ t ht
    · exact ihy hm hyk (hv.on (hu.on hc)) t ht
  | many hx _ ihx ih =>
    obtain ⟨u, hu⟩ := hx.reaches
    intro t ht
    rcases List.mem_append.1 ht with ht | ht
    · exact ihx hm hk hc t ht
    · exact ih hm hk (hu.on hc) t ht
  | again hx _ ihx ih =>
    obtain ⟨u, hu⟩ := Mode.gap_reaches _ _
    obtain ⟨v, hv⟩ := hx.reaches
    intro t ht
    simp only [List.mem_append] at ht
    rcases ht with (ht | ht) | ht
    · exact hgap _ _ t ht
    · exact ihx hm hk (hu.on hc) t ht
    · exact ih hm hk (hv.on (hu.on hc)) t ht

end Grammar

namespace Java

open Grammar
open Text (Span Source)

variable {s : Source}

/-! ## Brackets of a match -/

def opens (s : Source) : Derivation Rule → Bool
  | .word sp => s.slice? sp == some ['[']
  | _ => false

def bracketsInComment (s : Source) : Derivation Rule → Nat
  | .comment sp => ((s.slice? sp).getD []).count '['
  | _ => 0

/-- What a part counts for: a match of brackets for its pairs and for the brackets in its comments,
any other for nothing. -/
def dimsCounted (s : Source) : Derivation Rule → Nat
  | .node .dims _ parts => parts.countP (opens s) + tally (bracketsInComment s) parts
  | _ => 0

theorem dimsCounted_of_takes {parts : List (Derivation Rule)} {text : List Char}
    (hm : m.token = false) (hc : c.On s)
    (h : Takes Rule.grammar m (.once (Rule.grammar.body .dims)) c parts d)
    (htext : s.slice? ⟨c.offset, d.offset⟩ = some text) :
    text.count '[' = dimsCounted s (.node .dims ⟨c.offset, d.offset⟩ parts) := by
  obtain ⟨w, hw, hcount⟩ : ∃ w, c.Reaches w d ∧ w.count '[' = tally (countIn s '[') parts :=
    count_of_takes hm (by decide) h hc
  obtain rfl : w = text := by
    unfold Cursor.On at hc
    rw [hw.rest_eq] at hc
    rw [Source.slice?_eq_some hc hw.offset_eq] at htext
    exact Option.some.inj htext
  have hspelled : (Rule.grammar.body .dims).spelledBy [['['], [']']] = true := by decide
  have hparts := parts_of_spelledBy hm h hspelled hc
  rw [hcount, dimsCounted]
  clear hcount h htext
  induction parts with
  | nil => rfl
  | cons t parts ih =>
    rw [tally_cons, List.countP_cons, tally_cons, ih fun t ht => hparts t (by simp [ht])]
    have ht : countIn s '[' t = (if opens s t then 1 else 0) + bracketsInComment s t := by
      rcases hparts t (by simp) with ⟨sp, rfl⟩ | ⟨sp, rfl, w, hw, hslice⟩
      · simp [opens, bracketsInComment, countIn, Derivation.span]
      · rcases List.mem_cons.1 hw with rfl | hw
        · simp [opens, bracketsInComment, countIn, Derivation.span, hslice]
        · obtain rfl := List.mem_singleton.1 hw
          simp [opens, bracketsInComment, countIn, Derivation.span, hslice]
    omega

/-! ## Dimensions of pieces -/

def Node.dims? : Node → Option Nat
  | .type (.array _ _ n) => some n
  | .parameter p => some p.extraDims
  | .fragment f => some f.extraDims
  | .expr (.newSized _ _ _ n) => some n
  | .expr (.newListed _ _ n _ _) => some n
  | _ => none

namespace Piece

def dimsOf : Piece → Nat
  | .dims n => n
  | _ => 0

theorem tally_takeModifiers (ps : List Piece) : tally dimsOf ps = tally dimsOf (takeModifiers ps).2 := by
  fun_induction takeModifiers ps with
  | case1 m ps ih => simpa [dimsOf] using ih
  | case2 ps h => rfl

theorem tally_takeLengths (ps : List Piece) : tally dimsOf ps = tally dimsOf (takeLengths ps).2 := by
  fun_induction takeLengths ps with
  | case1 m ps ih => simpa [dimsOf] using ih
  | case2 ps h => rfl

theorem tally_takeDims (ps : List Piece) :
    tally dimsOf ps = (takeDims ps).1 + tally dimsOf (takeDims ps).2 := by
  unfold takeDims
  split <;> simp [dimsOf]

/-- The piece of a node counts dimensions only if its rule is that of brackets. -/
theorem dimsOf_of_assemble? {r : Rule} {span : Span} {text : List Char} {p : Piece} (hr : r ≠ .dims)
    (h : assemble? r span text ps = some p) : p.dimsOf = 0 := by
  have hkind : ∀ n, p ≠ .dims n := by
    rintro n rfl
    unfold assemble? at h
    cases r
    all_goals dsimp only at h
    case dims => exact hr rfl
    case forInit | postfixExpression =>
      split at h
      · first | cases h | (split at h <;> cases h)
      · simp at h
    all_goals first | cases h | simp at h | (split at h <;> simp at h)
  cases p with
  | dims n => exact absurd rfl (hkind n)
  | _ => rfl

/-- A node has the dimensions counted by the pieces of its own parts. -/
theorem dims?_of_assemble? {r : Rule} {span : Span} {text : List Char} {p : Piece} {n : Node}
    {k : Nat} (h : assemble? r span text ps = some p) (hnode : p.node? = some n)
    (hrule : n.rule? = some r) (hchildren : n.children.Sublist (ps.flatMap nodes))
    (hk : n.dims? = some k) : k = tally dimsOf ps := by
  unfold Node.dims? at hk
  split at hk <;> cases hk
  · rename_i sp el
    cases hrule
    obtain ⟨t, ht, rfl⟩ := Option.map_eq_some_iff.1
      (show (javaType? span ps).map Piece.type = some p from h)
    cases hnode
    unfold javaType? at ht
    split at ht
    · cases ht
      have hel := hchildren.subset (show Node.type el ∈ _ by simp [Node.children, Node.childrenOfType])
      have hel : el = .array sp el k := by simpa [nodes] using hel
      cases hel
    · cases ht
      simp [dimsOf]
    · cases ht
  · rename_i q
    cases hrule
    obtain ⟨q', hq, rfl⟩ := Option.map_eq_some_iff.1
      (show (parameterOf? span ps).map Piece.parameter = some p from h)
    cases hnode
    unfold parameterOf? at hq
    split at hq
    · rename_i modifiers t name rest htake
      split at hq
      · rename_i extraDims hdims
        cases hq
        rw [tally_takeModifiers, htake]
        simp [dimsOf, tally_takeDims rest, hdims]
      · cases hq
    · cases hq
  · rename_i f
    cases hrule
    obtain ⟨f', hf, rfl⟩ := Option.map_eq_some_iff.1
      (show (fragmentOf? span ps).map Piece.fragment = some p from h)
    cases hnode
    unfold fragmentOf? at hf
    split at hf
    · rename_i name rest
      rw [tally_cons, tally_takeDims rest]
      split at hf <;> cases hf <;> simp [dimsOf, *]
    · cases hf
  all_goals
    cases hrule
    obtain ⟨e, he, rfl⟩ := Option.map_eq_some_iff.1
      (show (newArray? span ps).map Piece.expr = some p from h)
    cases hnode
    unfold newArray? at he
    split at he
  · cases he
  · simp only at he
    rename_i t rest _
    split at he
    · rename_i extraDims hdims
      cases he
      rw [tally_cons, tally_takeLengths rest, tally_takeDims, hdims]
      simp [dimsOf]
    · cases he
  · cases he
  · cases he
    simp [dimsOf]
  · simp only at he
    split at he <;> cases he
  · cases he

end Piece

/-! ## Where the nodes of a tree stem from -/

/-- A node that has dimensions is a node of one of the derivations, of the rule and the span of that
node, and has those counted by its pieces. -/
def Stems (s : Source) (ts : List (Derivation Rule)) (n : Node) : Prop :=
  ∀ k, n.dims? = some k → ∃ r raw parts ps, .node r raw parts ∈ Derivation.subtreesAll ts ∧
    n.rule? = some r ∧ n.span = trim s raw ∧ piecesOfAll s parts = some ps ∧ k = tally Piece.dimsOf ps

theorem stems_of_rooted {ts : List (Derivation Rule)} {n : Node} (h : Rooted s ts n) :
    Stems s ts n := by
  intro k hk
  obtain ⟨r, hr, hkind, hlocals⟩ :
      ∃ r, n.rule? = some r ∧ r.kind = .tree ∧ r ≠ .localsStatement := by
    unfold Node.dims? at hk
    split at hk <;> cases hk <;> exact ⟨_, rfl, rfl, by decide⟩
  obtain ⟨raw, parts, ps, text, p, hmem, hspan, hps, hp, hnode, hchildren⟩ := h r hr hkind
  exact ⟨r, raw, parts, ps, hmem, hr, hspan, hps,
    Piece.dims?_of_assemble? hp hnode hr (hchildren hlocals) hk⟩

theorem stems_of_piecesOf (s : Source) (t : Derivation Rule) (h : piecesOf s t = some ps) :
    ∀ p ∈ ps, ∀ n ∈ p.nodes, n.All (Stems s [t]) :=
  fun p hp n hn => (rooted_of_piecesOf s t h p hp n hn).imp fun _ => stems_of_rooted

/-- The pieces of a list of derivations count the dimensions of its matches of brackets. -/
theorem tally_dimsOf {ts : List (Derivation Rule)}
    (hts : ∀ raw parts, .node .dims raw parts ∈ ts → ∃ m c d, m.token = false ∧ c.On s ∧
      raw = ⟨c.offset, d.offset⟩ ∧
      Takes Rule.grammar m (.once (Rule.grammar.body .dims)) c parts d)
    (h : piecesOfAll s ts = some ps) : tally Piece.dimsOf ps = tally (dimsCounted s) ts := by
  induction ts generalizing ps with
  | nil =>
    cases h
    rfl
  | cons t ts ih =>
    rw [← List.singleton_append] at h
    obtain ⟨qs, rs, hqs, hrs, rfl⟩ := piecesOfAll_append h
    rw [tally_append, tally_cons, ih (fun raw parts hmem => hts raw parts (by simp [hmem])) hrs]
    congr 1
    cases t with
    | word sp | comment sp =>
      obtain rfl : qs = [] := by simpa [piecesOfAll, piecesOf] using hqs.symm
      rfl
    | node r raw parts =>
      obtain ⟨ps, hps, ⟨hplain, rfl⟩ | ⟨-, text, htext, hp⟩⟩ := piecesOf_node hqs
      · cases r <;> first | rfl | cases hplain
      · obtain ⟨p, hpiece, rfl⟩ := Option.map_eq_some_iff.1 hp
        by_cases hr : r = .dims
        · subst hr
          obtain ⟨m, c, d, hm, hc, rfl, htakes⟩ := hts raw parts (by simp)
          cases hpiece
          exact dimsCounted_of_takes hm hc htakes htext
        · rw [tally_cons, Piece.dimsOf_of_assemble? hr hpiece]
          cases r <;> first | rfl | exact absurd rfl hr

/-- A text that parses. A node with dimensions comes from a match of its own rule, with its span, and
has a dimension for each pair of brackets that is a part of that match, and one for each opening
bracket in a comment between those brackets, or behind them and still in their match. -/
theorem dims_of_parse {name text : String} {p : Parsed} (h : parse name text = .ok p) :
    ∃ t, derivation? p.source = some t ∧ CompilationUnit.ofDerivation? p.source t = some p.unit ∧
      ∀ n ∈ (Node.unit p.unit).descendants, ∀ k, n.dims? = some k →
        ∃ r raw parts, .node r raw parts ∈ t.subtrees ∧ n.rule? = some r ∧
          n.span = trim p.source raw ∧ k = tally (dimsCounted p.source) parts := by
  obtain ⟨-, hparse⟩ := parseSource_of_parse h
  obtain ⟨t, ht, hu⟩ := exists_derivation hparse
  refine ⟨t, ht, hu, fun n hn k hk => ?_⟩
  have hpieces : piecesOf p.source t = some [.unit p.unit] := by
    unfold CompilationUnit.ofDerivation? at hu
    split at hu
    · rename_i u hpieces
      cases hu
      exact hpieces
    · cases hu
  obtain ⟨r, raw, parts, ps, hmem, hrule, hspan, hps, rfl⟩ :=
    stems_of_piecesOf p.source t hpieces (.unit p.unit) (by simp) _ (by simp [Piece.nodes]) n hn k hk
  rw [Derivation.subtreesAll, Derivation.subtreesAll, List.append_nil] at hmem
  refine ⟨r, raw, parts, hmem, hrule, hspan, tally_dimsOf (fun raw' parts' hmem' => ?_) hps⟩
  obtain ⟨d, htakes⟩ := takes_of_derivation? ht
  refine takes_of_subtree htakes (Text.dropBytes?_zero _) rfl ?_
  simpa [Derivation.subtreesAll] using Derivation.mem_subtrees_of_part hmem hmem'

/-- A type with one pair of brackets, and a bracket in the comment between them. -/
def bracketText : String := "class A{int[/*[*/] a;}"

theorem dims_of_parse_sample : ∃ p t, parse "A.java" bracketText = .ok p ∧
    derivation? p.source = some t ∧
    ∀ n ∈ (Node.unit p.unit).descendants, ∀ k, n.dims? = some k →
      ∃ r raw parts, .node r raw parts ∈ t.subtrees ∧ n.rule? = some r ∧
        n.span = trim p.source raw ∧ k = tally (dimsCounted p.source) parts := by
  obtain ⟨p, h⟩ : ∃ p, parse "A.java" bracketText = .ok p := exists_parsed (by decide +kernel)
  obtain ⟨t, ht, -, hdims⟩ := dims_of_parse h
  exact ⟨p, t, h, ht, hdims⟩

def singlePairs (s : Source) (t : Derivation Rule) : Bool :=
  t.subtrees.all fun
    | .node .dims _ parts => parts.countP (opens s) == 1
    | _ => true

/-- The bracket in a comment is counted as a dimension. -/
theorem dims_ne_pairs : ∃ p t, parse "A.java" bracketText = .ok p ∧
    derivation? p.source = some t ∧ singlePairs p.source t = true ∧
    ∃ n ∈ (Node.unit p.unit).descendants, n.dims? = some 2 := by
  have hpairs : (derivation? (Source.ofString "A.java" bracketText)).all
      (singlePairs (Source.ofString "A.java" bracketText)) = true := by decide +kernel
  have hdims : (parse "A.java" bracketText).toOption.any (fun p =>
      (Node.unit p.unit).descendants.any (·.dims? == some 2)) = true := by decide +kernel
  obtain ⟨p, h⟩ : ∃ p, parse "A.java" bracketText = .ok p := exists_parsed (by decide +kernel)
  obtain ⟨hsource, hparse⟩ := parseSource_of_parse h
  obtain ⟨t, ht, -⟩ := exists_derivation hparse
  rw [h] at hdims
  obtain ⟨n, hn, htwo⟩ := List.any_eq_true.1 hdims
  refine ⟨p, t, h, ht, ?_, n, hn, beq_iff_eq.1 htwo⟩
  rw [hsource] at ht ⊢
  rw [ht] at hpairs
  exact hpairs

end Java

end Transcribe
