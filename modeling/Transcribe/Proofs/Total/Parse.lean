/-
  Transcribe.Proofs.Total.Parse — a text parses if and only if it is in the grammar.

  A search for a match is always finished, what it comes to is what the grammar means, and every
  derivation is made into syntax: so the only way not to parse is not to match.

  What is made of a node is `NodeBuilt`: its piece, the word of its set if it is a token of such a
  set, and, for a binary expression, the links in the order of the operators and tests among its
  parts (`operators`). It holds of every node of a derivation, and the unit of a text is one.
  - `built_of_takes`: every node of a match has its piece, and every token its word.
  - `parse_ok_iff`: parsing succeeds if and only if the rule of the whole text matches.
-/

import Transcribe.Proofs.Total.Build
import Transcribe.Proofs.Total.Finish
import Transcribe.Proofs.Total.Meaning

namespace Transcribe.Java

open Grammar
open Text (Span Source)

variable {r : Rule} {ps : List Piece} {ts parts : List (Derivation Rule)} {m : Mode} {c d : Cursor}

/-! ## Operators -/

def Link.rule : Link → Rule
  | .op o _ => .infixOperator o
  | .test _ _ => .instanceofSuffix

def Rule.operator? : Rule → Option Rule
  | .infixOperator op => some (.infixOperator op)
  | .instanceofSuffix => some .instanceofSuffix
  | _ => none

def operators (parts : List (Derivation Rule)) : List Rule :=
  parts.filterMap fun
    | .node r _ _ => r.operator?
    | _ => none

def Piece.operator? : Piece → Option Rule
  | .infixOp op => some (.infixOperator op)
  | .test _ _ => some .instanceofSuffix
  | _ => none

theorem operator?_of_isOf {p : Piece} (h : p.IsOf r) : p.operator? = r.operator? := by
  cases r with
  | infixOperator | kwClass | kwInterface | importStatic | importOnDemand | endOfInput =>
    obtain rfl := h
    rfl
  | typeDeclaration | classBody | localsDeclaration | block | arrayInitializer | instanceofSuffix =>
    obtain ⟨_, _, rfl⟩ := h
    rfl
  | keyword | kwPackage | kwImport | kwExtends | kwImplements | kwThrows | kwIf | kwElse | kwWhile
  | kwDo | kwFor | kwReturn | kwBreak | kwContinue | kwThrow | kwNew | kwInstanceof => cases h
  | _ =>
    obtain ⟨_, rfl⟩ := h
    rfl

theorem operators_of_links? {links : List Link} (h : Piece.links? ps = some links) :
    links.map Link.rule = ps.filterMap Piece.operator? := by
  fun_induction Piece.links? ps generalizing links with
  | case1 =>
    cases h
    rfl
  | case2 op e ps ih =>
    obtain ⟨links, hlinks, rfl⟩ := Option.map_eq_some_iff.1 h
    simp [Link.rule, List.filterMap_cons, Piece.operator?, ih hlinks]
  | case3 s t ps ih =>
    obtain ⟨links, hlinks, rfl⟩ := Option.map_eq_some_iff.1 h
    simp [Link.rule, Piece.operator?, ih hlinks]
  | case4 => cases h

/-! ## Nodes -/

/-- What is made of a node: a plain word leaves nothing, any other node its piece; the word of a
token is one of its set; and a binary expression has the operators of its parts. -/
structure NodeBuilt (s : Source) (r : Rule) (raw : Span) (parts : List (Derivation Rule)) :
    Prop where
  piece : if Piece.isPlainWord r then piecesOf s (.node r raw parts) = some []
    else ∃ p, piecesOf s (.node r raw parts) = some [p] ∧ p.IsOf r
  word : r.kind = .token → ∃ w, s.slice? raw = some w ∧ r.HasWord (String.ofList w)
  links : r = .binaryExpression → ∃ first links,
    piecesOf s (.node r raw parts) = some [.expr (.ofLinks first links)] ∧
      links.map Link.rule = operators parts

def Built (s : Source) : Derivation Rule → Prop
  | .node r raw parts => NodeBuilt s r raw parts
  | _ => True

variable {s : Source}

theorem piecesOfAll_append_of {us : List (Derivation Rule)} {qs : List Piece}
    (hts : piecesOfAll s ts = some ps) (hus : piecesOfAll s us = some qs) :
    piecesOfAll s (ts ++ us) = some (ps ++ qs) := by
  induction ts generalizing ps with
  | nil =>
    cases hts
    exact hus
  | cons t ts ih =>
    rw [piecesOfAll] at hts
    split at hts
    · rename_i ps₁ ps₂ h₁ h₂
      cases hts
      rw [List.cons_append, piecesOfAll, h₁, ih h₂, List.append_assoc]
    · cases hts

/-- The operators among the pieces are those among the parts. -/
theorem operators_of_built (hparts : ∀ t ∈ parts, Built s t) (hps : piecesOfAll s parts = some ps) :
    ps.filterMap Piece.operator? = operators parts := by
  induction parts generalizing ps with
  | nil =>
    cases hps
    rfl
  | cons t parts ih =>
    obtain ⟨ht, hparts⟩ := List.forall_mem_cons.1 hparts
    rw [piecesOfAll] at hps
    split at hps
    · rename_i qs rs hqs hrs
      cases hps
      have hone : qs.filterMap Piece.operator? = operators [t] := by
        cases t with
        | word | comment =>
          cases hqs
          rfl
        | node r raw parts' =>
          have hpiece := ht.piece
          rw [hqs] at hpiece
          split at hpiece
          · rename_i hplain
            cases hpiece
            have hnone : ∀ r ∈ Rule.all, Piece.isPlainWord r = true → r.operator? = none := by
              decide
            simp [operators, hnone r r.mem_all hplain]
          · obtain ⟨p, hp, hof⟩ := hpiece
            cases hp
            simp [operators, List.filterMap_cons, operator?_of_isOf hof]
      rw [List.filterMap_append, ih hparts hrs, hone]
      exact List.filterMap_append.symm
    · cases hps

theorem Rule.binaryExpression_built {raw : Span} (hps : piecesOfAll s parts = some ps)
    (hparts : ∀ t ∈ parts, Built s t) (h : Leaves (Rule.body .binaryExpression) ps []) :
    ∃ first links,
      piecesOf s (.node .binaryExpression raw parts) = some [.expr (.ofLinks first links)] ∧
        links.map Link.rule = operators parts := by
  obtain ⟨_, ⟨_, rfl, first, rfl⟩, hlinks⟩ := h
  obtain ⟨links, hlinks⟩ := exists_links? rfl hlinks
  refine ⟨first, links, ?_, ?_⟩
  · rw [piecesOf, hps]
    exact congrArg (fun l? => (Option.map (fun l => Piece.expr (.ofLinks first l)) l?).map ([·])) hlinks
  · rw [operators_of_links? hlinks, ← operators_of_built hparts hps]
    rfl

def Trial.Leaves : Trial Rule → List Piece → List Piece → Prop
  | .once e => Java.Leaves e
  | .further e => Java.Leaves (.many e)

/-- The pieces of a node, from those of its parts. -/
theorem piecesOf_node_eq {raw : Span} (hps : piecesOfAll s parts = some ps) :
    piecesOf s (.node r raw parts) =
      if Piece.isPlainWord r then some []
      else (if Piece.readsText r then s.slice? raw else some []).bind fun text =>
        (Piece.assemble? r (trim s raw) text ps).map ([·]) := by
  rw [piecesOf, hps]
  simp only
  congr 1
  cases (if Piece.readsText r then s.slice? raw else some []) with
  | none => rfl
  | some text => rfl

/-- A token in its text. -/
theorem built_of_token (hm : m.token = true) (hr : r.kind = .token) (hkeyword : r ≠ .keyword)
    (hc : c.On s) (h : Takes Rule.grammar m (.once (Rule.grammar.body r)) c parts d) :
    parts = [] ∧ NodeBuilt s r ⟨c.offset, d.offset⟩ parts := by
  obtain rfl := Takes.nil_of_token hm h
  obtain ⟨w, hw⟩ := h.reaches
  have htext : s.slice? ⟨c.offset, d.offset⟩ = some w := by
    unfold Cursor.On at hc
    rw [hw.rest_eq] at hc
    exact Source.slice?_eq_some hc hw.offset_eq
  have hspells : Spells r w := ⟨m, c, [], d, hm, hw, h⟩
  refine ⟨rfl, ?_, fun _ => ⟨w, htext, hasWord_of_spells hspells⟩, ?_⟩
  · have hreads : Piece.readsText r = true := by simp [Piece.readsText, hr]
    by_cases hplain : Piece.isPlainWord r = true
    · rw [if_pos hplain, piecesOf_node_eq (by rw [piecesOfAll]), if_pos hplain]
    · rw [if_neg hplain]
      obtain ⟨p, hp, hof⟩ := builds_of_spells (trim s ⟨c.offset, d.offset⟩) hr
        (by simpa using hplain) hkeyword hspells
      refine ⟨p, ?_, hof⟩
      rw [piecesOf_node_eq (by rw [piecesOfAll]), if_neg hplain, if_pos hreads, htext,
        Option.bind_some, hp]
      rfl
  · rintro rfl
    cases hr

/-- A node that is no token, from its parts. -/
theorem built_of_tree {w : List Char} (hr : r.kind = .tree) (hc : c.On s) (hw : c.Reaches w d)
    (hps : piecesOfAll s parts = some ps) (hparts : ∀ t ∈ parts, Built s t)
    (h : Leaves r.body ps []) : NodeBuilt s r ⟨c.offset, d.offset⟩ parts := by
  have hplain : Piece.isPlainWord r = false := by
    rw [Bool.eq_false_iff]
    intro hplain
    rw [kind_of_isPlainWord hplain] at hr
    cases hr
  have htext : ∃ text, (if Piece.readsText r then s.slice? ⟨c.offset, d.offset⟩ else some [])
      = some text := by
    split
    · unfold Cursor.On at hc
      rw [hw.rest_eq] at hc
      exact ⟨w, Source.slice?_eq_some hc hw.offset_eq⟩
    · exact ⟨[], rfl⟩
  obtain ⟨text, htext⟩ := htext
  refine ⟨?_, ?_, ?_⟩
  · obtain ⟨p, hp, hof⟩ := builds_of_leaves (trim s ⟨c.offset, d.offset⟩) text hr h
    have hplain : ¬ Piece.isPlainWord r = true := by simp [hplain]
    rw [if_neg hplain]
    refine ⟨p, ?_, hof⟩
    rw [piecesOf_node_eq hps, if_neg hplain, htext, Option.bind_some, hp]
    rfl
  · intro htoken
    rw [htoken] at hr
    cases hr
  · rintro rfl
    exact Rule.binaryExpression_built hps hparts h

/-- Pieces of two matches with a gap between them. -/
theorem piecesOfAll_gap {us : List (Derivation Rule)} {qs : List Piece}
    (hts : piecesOfAll s ts = some ps) (hus : piecesOfAll s us = some qs) :
    piecesOfAll s (ts ++ m.gapLeaves c ++ us) = some (ps ++ qs) := by
  have hgap : piecesOfAll s (m.gapLeaves c) = some [] := piecesOfAll_comments s _
  have hfront := piecesOfAll_append_of hts hgap
  rw [List.append_nil] at hfront
  exact piecesOfAll_append_of hfront hus

theorem built_gapLeaves (m : Mode) (c : Cursor) :
    ∀ u ∈ Derivation.subtreesAll (m.gapLeaves c), Built s u := by
  rw [Derivation.subtreesAll_eq]
  intro u hu
  obtain ⟨t, ht, hu⟩ := List.mem_flatMap.1 hu
  obtain ⟨sp, -, rfl⟩ := List.mem_map.1 ht
  obtain rfl := List.mem_singleton.1 hu
  trivial

theorem subtreesAll_append {us : List (Derivation Rule)} {P : Derivation Rule → Prop} :
    (∀ u ∈ Derivation.subtreesAll (ts ++ us), P u) ↔
      (∀ u ∈ Derivation.subtreesAll ts, P u) ∧ ∀ u ∈ Derivation.subtreesAll us, P u := by
  rw [Derivation.subtreesAll_eq, List.flatMap_append, List.forall_mem_append,
    ← Derivation.subtreesAll_eq, ← Derivation.subtreesAll_eq]

theorem leaves_many_cons {x : Peg Rule} {qs rest : List Piece} (hx : Leaves x ps [])
    (h : Leaves (.many x) (qs ++ rest) rest) : Leaves (.many x) (ps ++ qs ++ rest) rest := by
  obtain ⟨pss, hpss, hall⟩ := h
  refine ⟨ps :: pss, ?_, List.forall_mem_cons.2 ⟨hx, hall⟩⟩
  rw [List.append_assoc, hpss, List.flatten_cons, List.append_assoc]

/-- Every match has its pieces, and so has every node in it. -/
theorem built_of_takes {k : Trial Rule} (hm : m.token = false) (h : Takes Rule.grammar m k c ts d)
    (hc : c.On s) (hk : Rule.keyword ∉ k.peg.rules) :
    (∃ ps, piecesOfAll s ts = some ps ∧ ∀ rest, Trial.Leaves k (ps ++ rest) rest) ∧
      ∀ u ∈ Derivation.subtreesAll ts, Built s u := by
  induction h with
  | word | words | one =>
    rw [Mode.leaf, if_neg (by simp [hm])]
    exact ⟨⟨[], rfl, fun _ => rfl⟩, by simp [Derivation.subtreesAll, Derivation.subtrees, Built]⟩
  | startOfText | endOfText | ahead | notAhead =>
    exact ⟨⟨[], rfl, fun _ => rfl⟩, by simp [Derivation.subtreesAll]⟩
  | absent => exact ⟨⟨[], rfl, fun _ => .inl rfl⟩, by simp [Derivation.subtreesAll]⟩
  | never | done =>
    exact ⟨⟨[], rfl, fun _ => ⟨[], rfl, by simp⟩⟩, by simp [Derivation.subtreesAll]⟩
  | @rule m r c parts d h ih =>
    rw [if_neg (by simp [hm])]
    have hkeyword : r ≠ .keyword := fun heq => hk (by simp [Trial.peg, Peg.rules, heq])
    have hnode : NodeBuilt s r ⟨c.offset, d.offset⟩ parts ∧
        ∀ u ∈ Derivation.subtreesAll parts, Built s u := by
      cases hr : r.kind with
      | token =>
        obtain ⟨rfl, hnode⟩ := built_of_token (inner_token hr) hr hkeyword hc h
        exact ⟨hnode, by simp [Derivation.subtreesAll]⟩
      | tree =>
        -- The rule of keywords makes no piece, but it occurs inside of tokens only.
        have hbody : ∀ r ∈ Rule.all, r.kind = .tree → Rule.keyword ∉ r.body.rules := by
          decide
        obtain ⟨⟨ps, hps, hleaves⟩, hparts⟩ :=
          ih (by rw [inner_tree hr, hm]) hc (hbody r r.mem_all hr)
        obtain ⟨w, hw⟩ := h.reaches
        refine ⟨built_of_tree hr hc hw hps (fun t ht => hparts t ?_) ?_, hparts⟩
        · rw [Derivation.subtreesAll_eq]
          exact List.mem_flatMap.2 ⟨t, ht, t.self_mem_subtrees⟩
        · rw [← List.append_nil ps]
          exact hleaves []
    obtain ⟨hnode, hparts⟩ := hnode
    refine ⟨?_, ?_⟩
    · have hpiece := hnode.piece
      by_cases hplain : Piece.isPlainWord r = true
      · rw [if_pos hplain] at hpiece
        refine ⟨[], by simp [piecesOfAll, hpiece], fun rest => ?_⟩
        show if _ then _ else _
        rw [if_pos hplain]
        rfl
      · rw [if_neg hplain] at hpiece
        obtain ⟨p, hp, hof⟩ := hpiece
        refine ⟨[p], by simp [piecesOfAll, hp], fun rest => ?_⟩
        show if _ then _ else _
        rw [if_neg hplain]
        exact ⟨p, rfl, hof⟩
    · intro u hu
      simp only [Derivation.subtreesAll, Derivation.subtrees, List.append_nil, List.mem_cons] at hu
      rcases hu with rfl | hu
      · exact hnode
      · exact hparts u hu
  | left _ ih =>
    obtain ⟨⟨ps, hps, hleaves⟩, hall⟩ := ih hm hc fun h => hk (List.mem_append_left _ h)
    exact ⟨⟨ps, hps, fun rest => .inl (hleaves rest)⟩, hall⟩
  | right _ _ ih =>
    obtain ⟨⟨ps, hps, hleaves⟩, hall⟩ := ih hm hc fun h => hk (List.mem_append_right _ h)
    exact ⟨⟨ps, hps, fun rest => .inr (hleaves rest)⟩, hall⟩
  | present _ ih =>
    obtain ⟨⟨ps, hps, hleaves⟩, hall⟩ := ih hm hc hk
    exact ⟨⟨ps, hps, fun rest => .inr (hleaves rest)⟩, hall⟩
  | @seq m _ _ _ _ mid _ _ hx _ ihx ihy =>
    obtain ⟨u, hu⟩ := hx.reaches
    obtain ⟨v, hv⟩ := m.gap_reaches mid
    obtain ⟨⟨ps, hps, hleaves⟩, hall⟩ := ihx hm hc fun h => hk (List.mem_append_left _ h)
    obtain ⟨⟨qs, hqs, hleaves'⟩, hall'⟩ := ihy hm ((hu.trans hv).on hc) fun h =>
      hk (List.mem_append_right _ h)
    refine ⟨⟨ps ++ qs, piecesOfAll_gap hps hqs, fun rest => ⟨qs ++ rest, ?_, hleaves' rest⟩⟩, ?_⟩
    · rw [List.append_assoc]
      exact hleaves (qs ++ rest)
    · exact subtreesAll_append.2 ⟨subtreesAll_append.2 ⟨hall, built_gapLeaves m mid⟩, hall'⟩
  | many hx _ ihx ih =>
    obtain ⟨u, hu⟩ := hx.reaches
    obtain ⟨⟨ps, hps, hleaves⟩, hall⟩ := ihx hm hc hk
    obtain ⟨⟨qs, hqs, hleaves'⟩, hall'⟩ := ih hm (hu.on hc) hk
    refine ⟨⟨ps ++ qs, piecesOfAll_append_of hps hqs, fun rest => ?_⟩,
      subtreesAll_append.2 ⟨hall, hall'⟩⟩
    exact leaves_many_cons (by rw [← List.append_nil ps]; exact hleaves []) (hleaves' rest)
  | @again m _ c _ _ _ _ hx _ ihx ih =>
    obtain ⟨u, hu⟩ := hx.reaches
    obtain ⟨v, hv⟩ := m.gap_reaches c
    obtain ⟨⟨ps, hps, hleaves⟩, hall⟩ := ihx hm (hv.on hc) hk
    obtain ⟨⟨qs, hqs, hleaves'⟩, hall'⟩ := ih hm ((hv.trans hu).on hc) hk
    have hfront : piecesOfAll s ([] ++ m.gapLeaves c ++ _) = some ([] ++ ps) :=
      piecesOfAll_gap rfl hps
    refine ⟨⟨ps ++ qs, piecesOfAll_append_of hfront hqs, fun rest => ?_⟩, ?_⟩
    · exact leaves_many_cons (by rw [← List.append_nil ps]; exact hleaves []) (hleaves' rest)
    · exact subtreesAll_append.2 ⟨subtreesAll_append.2 ⟨built_gapLeaves m c, hall⟩, hall'⟩

/-! ## Whole texts -/

/-- A match of the whole text is made into a compilation unit, and each of its nodes into a part of
it. -/
theorem unit_of_takes (hm : m.token = false)
    (h : Takes Rule.grammar m (.once (.rule .compilationUnit)) ⟨0, s.chars⟩ ts d) :
    ∃ t u, ts = [t] ∧ CompilationUnit.ofDerivation? s t = some u ∧ ∀ v ∈ t.subtrees, Built s v := by
  have hon : Cursor.On ⟨0, s.chars⟩ s := Text.dropBytes?_zero _
  obtain ⟨-, hall⟩ := built_of_takes hm h hon (by decide)
  obtain ⟨parts, -, rfl⟩ := h.of_rule
  rw [if_neg (by simp [hm])] at hall ⊢
  rw [Derivation.subtreesAll, Derivation.subtreesAll, List.append_nil] at hall
  have hnode : NodeBuilt s .compilationUnit _ parts := hall _ (Derivation.self_mem_subtrees _)
  obtain ⟨_, hpieces, u, rfl⟩ := hnode.piece
  refine ⟨_, u, rfl, ?_, hall⟩
  rw [CompilationUnit.ofDerivation?, hpieces]

theorem parseSource_of_failed {a : Attempts Rule}
    (h : Rule.grammar.match? .compilationUnit s.chars = some (.failed a)) :
    parseSource s = .error (.refused a.offset a.expected a.unexpected) := by
  unfold parseSource
  rw [h]

theorem parseSource_of_matched {t : Derivation Rule} {a : Attempts Rule} {u : CompilationUnit}
    (h : Rule.grammar.match? .compilationUnit s.chars = some (.matched [t] d a))
    (hu : CompilationUnit.ofDerivation? s t = some u) : parseSource s = .ok u := by
  unfold parseSource
  rw [h]
  simp only [hu]

/-- A text parses if and only if the grammar matches it. A text that does not parse is refused for
what stands in it, never for what the search or the tree came to; and in a text that matches every
node of the derivation has its place in the tree. -/
theorem parse_ok_iff (name text : String) :
    ((∃ p, parse name text = .ok p) ↔ ∃ ts d,
      Parses Rule.grammar false (.once (.rule .compilationUnit)) ⟨0, text.toList⟩ (some (ts, d))) ∧
    (∀ f, parse name text = .error f → ∃ o expected unexpected,
      f = .refused o expected unexpected) ∧
    ∀ ts d,
      Parses Rule.grammar false (.once (.rule .compilationUnit)) ⟨0, text.toList⟩ (some (ts, d)) →
      ∃ t u, ts = [t] ∧ parse name text = .ok ⟨Source.ofString name text, u⟩ ∧
        CompilationUnit.ofDerivation? (Source.ofString name text) t = some u ∧
        ∀ r raw parts, .node r raw parts ∈ t.subtrees →
          NodeBuilt (Source.ofString name text) r raw parts := by
  obtain ⟨out, hout⟩ := Rule.match?_grammar .compilationUnit text.toList
  have hmatch : Rule.grammar.match? .compilationUnit (Source.ofString name text).chars = some out :=
    hout
  have hparses : Parses Rule.grammar false (.once (.rule .compilationUnit)) ⟨0, text.toList⟩
      out.answer := parses_of_run hout
  have hparse : parse name text = (parseSource (Source.ofString name text)).map fun u =>
      ⟨Source.ofString name text, u⟩ := rfl
  -- The search finishes, and what it comes to is the only answer there is.
  cases out with
  | failed a =>
    have herror : parse name text = .error (.refused a.offset a.expected a.unexpected) := by
      rw [hparse, parseSource_of_failed hmatch]
      rfl
    have hnone : ∀ ts d, ¬ Parses Rule.grammar false (.once (.rule .compilationUnit))
        ⟨0, text.toList⟩ (some (ts, d)) := by
      intro ts d h
      cases hparses.unique h
    refine ⟨⟨?_, ?_⟩, ?_, fun ts d h => absurd h (hnone ts d)⟩
    · rintro ⟨p, hp⟩
      rw [herror] at hp
      cases hp
    · rintro ⟨ts, d, h⟩
      exact absurd h (hnone ts d)
    · intro f hf
      rw [herror] at hf
      cases hf
      exact ⟨_, _, _, rfl⟩
  | matched ts d a =>
    obtain ⟨t, u, rfl, hu, hall⟩ := unit_of_takes (s := Source.ofString name text) rfl
      (takes_of_run hmatch)
    have hok : parse name text = .ok ⟨Source.ofString name text, u⟩ := by
      rw [hparse, parseSource_of_matched hmatch hu]
      rfl
    refine ⟨⟨fun _ => ⟨[t], d, hparses⟩, fun _ => ⟨_, hok⟩⟩, ?_, ?_⟩
    · intro f hf
      rw [hok] at hf
      cases hf
    · intro ts' d' h
      cases hparses.unique h
      exact ⟨t, u, rfl, hok, hu, fun r raw parts hnode => hall _ hnode⟩

end Transcribe.Java
