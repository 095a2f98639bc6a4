/-
  Transcribe.Proofs.Ending.Tree — the nodes of a syntax tree lie between line breaks.

  Every token ends with a character that is no space, and every gap where no space follows, so no
  match ends inside a break. Spans are cut off at such places too. Nothing here asks what the table
  of comments holds.

  That no word or character of an expression is or ends with a carriage return is checked on the
  grammar (`endsInText`). The derivations of a text are `Seated`: no node of them ends inside a
  break, and the tokens among them spell their rules. What is shown of the nodes made from them goes
  by the induction over matches of `Transcribe.Proofs.Origin`.
  - `whole_of_takes`: a match ends inside no break.
  - `Tidy`: no node begins or ends inside a break, and names have none.
  - `tidy_of_parse`: so it is in every tree that was read.
-/

import Transcribe.Proofs.Ending.Break

namespace Transcribe.Java

open Grammar
open Text (Span Source Splits byteLength)

variable {s : Source}

/-! ## Matches -/

def endsInText : Peg Rule → Bool
  | .word w => w.getLast? != some '\r'
  | .words ws => ws.all fun w => w.getLast? != some '\r'
  | .one p => !p '\r'
  | .seq a b | .alt a b => endsInText a && endsInText b
  | .opt a | .many a => endsInText a
  | _ => true

theorem endsInText_body {r : Rule} (hr : r.kind = .tree) : endsInText r.body = true := by
  have hall : ∀ r ∈ Rule.all, r.kind = .tree → endsInText r.body = true := by decide
  exact hall r r.mem_all hr

theorem whole_of_word {c : Cursor} {w rest : List Char} (hc : c.On s) (hwhole : s.Whole c.offset)
    (hw : (w.getLast? != some '\r') = true) (h : afterWord? w c.rest = some rest) :
    s.Whole (c.offset + byteLength w) := by
  unfold Cursor.On at hc
  rw [eq_append_of_afterWord? h] at hc
  exact Source.whole_add hc hwhole fun hsplit => bne_iff_ne.1 hw hsplit.1

theorem whole_gap {c : Cursor} (hc : c.On s) : s.Whole (gap c).2.offset := by
  have hgap := gapTo_gap c
  refine Source.whole_of_head (hgap.on hc) fun hhead => ?_
  obtain ⟨rest, hrest⟩ := List.head?_eq_some_iff.1 hhead
  -- A line feed would belong to the gap.
  have hstay := hgap.gap_eq
  generalize (gap c).2 = d at *
  obtain ⟨o, cs⟩ := d
  subst hrest
  have hstep : gap ⟨o, '\n' :: rest⟩ = gap ⟨o + 1, rest⟩ := rfl
  obtain ⟨w, hw⟩ := (gapTo_gap ⟨o + 1, rest⟩).reaches
  have := hw.offset_eq
  rw [← hstep, hstay] at this
  dsimp only at this
  omega

theorem whole_of_token {m : Mode} {r : Rule} {c d : Cursor} {ts : List (Derivation Rule)}
    (hm : m.token = true) (hr : r.kind = .token) (hc : c.On s) (hwhole : s.Whole c.offset)
    (h : Takes Rule.grammar m (.once (Rule.grammar.body r)) c ts d) : s.Whole d.offset := by
  obtain ⟨w, -, -, v, l, hw, -, -, rfl, hl⟩ := token_edges hm hr h
  unfold Cursor.On at hc
  rw [hw.rest_eq] at hc
  rw [hw.offset_eq]
  refine Source.whole_add hc hwhole fun hsplit => ?_
  obtain rfl : l = '\r' := by simpa using hsplit.1
  cases hl

def Seated (s : Source) (ts : List (Derivation Rule)) : Prop :=
  ∀ r raw parts, .node r raw parts ∈ Derivation.subtreesAll ts → s.Whole raw.stop ∧
    (r.kind = .token → ∃ w, s.slice? raw = some w ∧ Spells r w)

namespace Seated

theorem nil : Seated s [] := by
  rintro r raw parts ⟨⟩

theorem append {ts us : List (Derivation Rule)} (h : Seated s ts) (h' : Seated s us) :
    Seated s (ts ++ us) := by
  intro r raw parts hmem
  rw [Derivation.subtreesAll_eq, List.flatMap_append, ← Derivation.subtreesAll_eq,
    ← Derivation.subtreesAll_eq, List.mem_append] at hmem
  exact hmem.elim (h r raw parts) (h' r raw parts)

theorem leaf (m : Mode) (span : Span) : Seated s (m.leaf span) := by
  intro r raw parts hmem
  simp only [Mode.leaf] at hmem
  split at hmem <;> simp [Derivation.subtreesAll, Derivation.subtrees] at hmem

theorem gapLeaves (m : Mode) (c : Cursor) : Seated s (m.gapLeaves c) := by
  intro r raw parts hmem
  rw [Derivation.subtreesAll_eq] at hmem
  obtain ⟨t, ht, hmem⟩ := List.mem_flatMap.1 hmem
  obtain ⟨sp, -, rfl⟩ := List.mem_map.1 ht
  simp [Derivation.subtrees] at hmem

end Seated

/-- A match that begins inside no break ends inside none, and neither do its parts. -/
theorem whole_of_takes {m : Mode} {k : Trial Rule} {c d : Cursor} {ts : List (Derivation Rule)}
    (hm : m.token = false) (h : Takes Rule.grammar m k c ts d) (hk : endsInText k.peg = true)
    (hc : c.On s) (hwhole : s.Whole c.offset) : s.Whole d.offset ∧ Seated s ts := by
  have hgap : ∀ {c : Cursor}, c.On s → s.Whole (m.gap c).2.offset ∧ (m.gap c).2.On s := by
    intro c hc
    rw [Mode.gap_of_tree hm]
    exact ⟨whole_gap hc, (gapTo_gap c).on hc⟩
  induction h with
  | word h => exact ⟨whole_of_word hc hwhole hk h, .leaf _ _⟩
  | words hw h => exact ⟨whole_of_word hc hwhole (List.all_eq_true.1 hk _ hw) h, .leaf _ _⟩
  | @one m p o ch rest h =>
    refine ⟨?_, .leaf _ _⟩
    have hsplit : ¬ Splits [ch] rest := by
      rintro ⟨hlast, -⟩
      obtain rfl : ch = '\r' := by simpa using hlast
      simp [Trial.peg, endsInText, h] at hk
    simpa using Source.whole_add (w := [ch]) hc hwhole hsplit
  | startOfText | endOfText | absent | never | ahead | notAhead | done => exact ⟨hwhole, .nil⟩
  | @rule m r c parts d h ih =>
    rw [if_neg (by simp [hm])]
    have hstop : s.Whole d.offset ∧ Seated s parts := by
      cases hr : r.kind with
      | tree =>
        rw [inner_tree hr] at ih
        exact ih hm (endsInText_body hr) hc hwhole hgap
      | token =>
        obtain rfl := Takes.nil_of_token (inner_token hr) h
        exact ⟨whole_of_token (inner_token hr) hr hc hwhole h, .nil⟩
    refine ⟨hstop.1, fun r' raw' parts' hmem => ?_⟩
    simp only [Derivation.subtreesAll, Derivation.subtrees, List.append_nil, List.mem_cons] at hmem
    rcases hmem with heq | hmem
    · cases heq
      refine ⟨hstop.1, fun hr => ?_⟩
      obtain ⟨w, hw⟩ := h.reaches
      unfold Cursor.On at hc
      rw [hw.rest_eq] at hc
      exact ⟨w, Source.slice?_eq_some hc hw.offset_eq, _, _, _, _, inner_token hr, hw, h⟩
    · exact hstop.2 r' raw' parts' hmem
  | left _ ih => exact ih hm (Bool.and_eq_true_iff.1 hk).1 hc hwhole hgap
  | right _ _ ih => exact ih hm (Bool.and_eq_true_iff.1 hk).2 hc hwhole hgap
  | present _ ih => exact ih hm hk hc hwhole hgap
  | seq hx _ ihx ihy =>
    obtain ⟨hkx, hky⟩ := Bool.and_eq_true_iff.1 hk
    obtain ⟨v, hv⟩ := hx.reaches
    obtain ⟨-, hbefore⟩ := ihx hm hkx hc hwhole hgap
    -- Where the first part ends does not matter: behind the gap no break can be cut.
    obtain ⟨hmid, hon⟩ := hgap (hv.on hc)
    obtain ⟨hstop, hbehind⟩ := ihy hm hky hon hmid hgap
    exact ⟨hstop, (hbefore.append (.gapLeaves _ _)).append hbehind⟩
  | many hx _ ihx ih =>
    obtain ⟨v, hv⟩ := hx.reaches
    obtain ⟨hmid, hfirst⟩ := ihx hm hk hc hwhole hgap
    obtain ⟨hstop, hothers⟩ := ih hm hk (hv.on hc) hmid hgap
    exact ⟨hstop, hfirst.append hothers⟩
  | again hx _ ihx ih =>
    obtain ⟨hmid, hon⟩ := hgap hc
    obtain ⟨v, hv⟩ := hx.reaches
    obtain ⟨hend, htrees⟩ := ihx hm hk hon hmid hgap
    obtain ⟨hstop, hothers⟩ := ih hm hk (hv.on hon) hend hgap
    exact ⟨hstop, ((Seated.gapLeaves _ _).append htrees).append hothers⟩

/-! ## Nodes -/

def Node.names : Node → List SimpleName
  | .package p => p.name.segments
  | .importing i => i.name.segments
  | .type (.simple t) => t.name.segments
  | .expr (.name n) => [n]
  | _ => []

/-- Nodes joined from others spell no names. -/
theorem Node.rule?_of_names {n : Node} {x : SimpleName} (h : x ∈ n.names) : n.rule? ≠ none := by
  unfold names at h
  split at h
  · nofun
  · nofun
  · nofun
  · nofun
  · cases h

/-- A node that was read neither begins nor ends inside a break, and what it spells does not end with
a part of one. -/
structure Tidy (s : Source) (n : Node) : Prop where
  edges : n.rule? ≠ none → s.Whole n.span.start ∧ s.Whole n.span.stop
  names : ∀ x ∈ n.names, ∀ c ∈ x.text.toList, isIdentChar c = true
  literal : ∀ span k t, n = .expr (.literal span k t) → t.toList.getLast? ≠ some '\r'

theorem whole_trim {raw : Span} (h : s.Whole raw.stop) :
    s.Whole (trim s raw).start ∧ s.Whole (trim s raw).stop := by
  have hstart : s.Whole (trim s raw).start := Source.whole_min (Source.whole_skipSpace_false _) h
  exact ⟨hstart, Source.whole_max (Source.whole_skipSpaceBack _) hstart⟩

theorem Spells.getLast?_ne {r : Rule} {w : List Char} (h : Spells r w) (hr : r.kind = .token) :
    w.getLast? ≠ some '\r' := by
  obtain ⟨m, c, parts, d, hm, hw, htakes⟩ := h
  obtain ⟨w', -, -, v, l, hw', -, -, hlast, hl⟩ := token_edges hm hr htakes
  have hsame := hw.rest_eq
  rw [hw'.rest_eq] at hsame
  rw [← List.append_cancel_right hsame, hlast]
  rintro h
  obtain rfl : l = '\r' := by simpa using h
  cases hl

/-- The names of a node that is no name itself are those of its parts. -/
theorem names_of_tree {r : Rule} {span : Span} {text : List Char} {ps : List Piece} {p : Piece}
    {n : Node} (hr : n.rule? = some r) (hkind : r.kind = .tree)
    (h : Piece.assemble? r span text ps = some p) (hn : p.node? = some n) {x : SimpleName}
    (hx : x ∈ n.names) : ∃ q ∈ ps, ∃ m ∈ q.nodes, x ∈ m.names := by
  have hpath : ∀ {n : Name}, .path n ∈ ps → x ∈ n.segments →
      ∃ q ∈ ps, ∃ m ∈ q.nodes, x ∈ m.names :=
    fun hmem hx => ⟨_, hmem, _, List.mem_singleton.2 rfl, hx⟩
  cases n with
  | package k =>
    cases hr
    unfold Piece.assemble? at h
    dsimp only at h
    split at h
    · cases h
      cases hn
      exact hpath (by simp) hx
    · cases h
  | importing i =>
    cases hr
    obtain ⟨i', hi', rfl⟩ := Option.map_eq_some_iff.1
      (show (Piece.importing? span ps).map Piece.importing = some p from h)
    cases hn
    exact hpath (Piece.path_of_importing? hi') hx
  | type t =>
    cases t with
    | simple t =>
      cases hr
      obtain ⟨ns, hns, rfl⟩ := Option.map_eq_some_iff.1
        (show (ps.mapM Piece.name?).map (fun ns => Piece.path ⟨span, ns⟩) = some p from h)
      cases hn
      obtain ⟨q, hq, hname⟩ := exists_mem_of_mapM hns hx
      cases q with
      | name y =>
        cases hname
        exact ⟨_, hq, _, List.mem_singleton.2 rfl, List.mem_singleton.2 rfl⟩
      | _ => cases hname
    | _ => cases hx
  | expr e =>
    cases e with
    | name y =>
      cases hr
      cases hkind
    | _ => cases hx
  | _ => cases hx

/-- A token that is a node is a name, a literal, or has no text of its own. -/
theorem tidy_of_token {r : Rule} {span : Span} {w : List Char} {ps : List Piece} {p : Piece}
    {n : Node} (hr : r.kind = .token) (hw : Spells r w) (h : Piece.assemble? r span w ps = some p)
    (hn : p.node? = some n) : (∀ x ∈ n.names, ∀ c ∈ x.text.toList, isIdentChar c = true) ∧
      ∀ sp k t, n = .expr (.literal sp k t) → t.toList.getLast? ≠ some '\r' := by
  have hlast := hw.getLast?_ne hr
  unfold Piece.assemble? at h
  cases r
  all_goals first | (exact absurd hr (by decide)) | skip
  all_goals dsimp only at h
  case identifier =>
    cases h
    cases hn
    have hchars := hw.identifier.2
    refine ⟨fun x hx => ?_, nofun⟩
    obtain rfl := List.mem_singleton.1 hx
    simpa using hchars
  case floatLiteral | integerLiteral | charLiteral | stringLiteral | booleanLiteral
      | nullLiteral =>
    cases h
    cases hn
    refine ⟨nofun, fun _ _ _ heq => ?_⟩
    cases heq
    simpa using hlast
  case thisExpression =>
    cases h
    cases hn
    exact ⟨nofun, nofun⟩
  case modifier | primitiveType | voidType | assignmentOperator | infixOperator | prefixOperator
      | postfixOperator =>
    obtain ⟨k, -, rfl⟩ := Option.map_eq_some_iff.1 h
    first
    | (cases hn; exact ⟨nofun, nofun⟩)
    | cases hn
  all_goals
    cases h
    try cases hn

theorem tidy_of_joined {n : Node} (h : n.rule? = none) : Tidy s n := by
  refine ⟨fun hne => absurd h hne, fun x hx => absurd h (Node.rule?_of_names hx), ?_⟩
  rintro span k t rfl
  cases h

/-- A node that a match was made into is tidy if the nodes of its parts are. -/
theorem tidy_of_sprung {r : Rule} {raw : Span} {parts : List (Derivation Rule)} {text : List Char}
    {ps : List Piece} {n : Node} (hseat : s.Whole raw.stop ∧
      (r.kind = .token → ∃ w, s.slice? raw = some w ∧ Spells r w))
    (hn : Sprung s r raw parts text ps n) (hparts : ∀ q ∈ ps, ∀ m ∈ q.nodes, m.All (Tidy s)) :
    Tidy s n := by
  obtain ⟨q, hq, hnode⟩ := hn.made
  have hedges : n.rule? ≠ none → s.Whole n.span.start ∧ s.Whole n.span.stop := by
    rw [hn.span]
    exact fun _ => whole_trim hseat.1
  cases hkind : r.kind with
  | token =>
    obtain ⟨w, hw, hspells⟩ := hseat.2 hkind
    rw [hn.slice (by simp [Piece.readsText, hkind])] at hw
    cases hw
    obtain ⟨hnames, hliteral⟩ := tidy_of_token hkind hspells hq hnode
    exact ⟨hedges, hnames, hliteral⟩
  | tree =>
    refine ⟨hedges, fun x hx => ?_, ?_⟩
    · obtain ⟨r', hr'⟩ := Option.ne_none_iff_exists'.1 (Node.rule?_of_names hx)
      obtain rfl := (hn.rule r' hr').2 hkind
      obtain ⟨q', hq', m, hm, hx⟩ := names_of_tree hr' hkind hq hnode hx
      exact (hparts q' hq' m hm).self.names x hx
    · rintro span k t rfl
      have hsame := (hn.rule _ rfl).1
      rw [hkind] at hsame
      cases k <;> cases hsame

/-- Every node of a tree that was read is tidy. -/
theorem tidy_of_parse {name text : String} {p : Parsed} (h : parse name text = .ok p) :
    (Node.unit p.unit).All (Tidy p.source) := by
  obtain ⟨-, hparse⟩ := parseSource_of_parse h
  obtain ⟨t, ht, hu⟩ := exists_derivation hparse
  obtain ⟨d, htakes⟩ := takes_of_derivation? ht
  have hseated : Seated p.source [t] :=
    (whole_of_takes rfl htakes rfl (Text.dropBytes?_zero _) Source.whole_zero).2
  have hpieces := piecesOf_of_ofDerivation? hu
  have hinherited : Inherited p.source t.subtrees (Tidy p.source) :=
    ⟨fun n => tidy_of_joined, fun hmem hn hparts => tidy_of_sprung
      (hseated _ _ _ (by simpa [Derivation.subtreesAll] using hmem)) hn hparts⟩
  exact all_of_piecesOf hinherited t (fun _ h => h) hpieces (.unit p.unit) (by simp) _
    (by simp [Piece.nodes])

end Transcribe.Java
