/-
  Transcribe.Proofs.Origin — which matches the nodes of a syntax tree stem from.

  Nothing here asks what the table of comments holds: a node begins where the match of its rule
  does, whatever is cut off behind it.

  The subtrees of a derivation are all the nodes and words it is made of. A node of the syntax tree
  is `Sprung` from one of them, from the text of the match or the pieces of its parts, or it is
  joined from others. A property is `Inherited` if it passes from the parts to what is made of them
  in either way; then it holds of all nodes. That a node stems from a match of its own rule
  (`Rooted`, `Origin`) is one such property, that a type is wider than the types declared in it
  (`Node.Wider`) another.
  - `Takes.node_mem`, `Takes.subtree`: the nodes of a match are matches themselves, inside it.
  - `all_of_piecesOf`: what holds of the nodes that matches are made into, if it holds of the nodes
    of their parts, holds of all nodes.
  - `rooted_of_piecesOf`: a node is made of the pieces of a match of its own rule.
  - `wider_of_parse`: a type begins before the types declared in it.
  - `spaced_of_parse`: behind the word `new` stands space or a comment.
-/

import Transcribe.Proofs.Nest

namespace Transcribe

namespace Grammar

open Text (Span Source)

variable {ρ : Type}

namespace Derivation

mutual

def subtrees : Derivation ρ → List (Derivation ρ)
  | .node r s parts => .node r s parts :: subtreesAll parts
  | .word s => [.word s]
  | .comment s => [.comment s]

def subtreesAll : List (Derivation ρ) → List (Derivation ρ)
  | [] => []
  | t :: ts => t.subtrees ++ subtreesAll ts

end

theorem subtreesAll_eq (ts : List (Derivation ρ)) : subtreesAll ts = ts.flatMap subtrees := by
  induction ts with
  | nil => rfl
  | cons t ts ih => simp [subtreesAll, ih]

theorem self_mem_subtrees (t : Derivation ρ) : t ∈ t.subtrees := by
  cases t <;> simp [subtrees]

mutual

/-- What a part of a derivation is made of is a part of it. -/
theorem mem_subtrees_of_part {t u : Derivation ρ} {r : ρ} {s : Span} {parts : List (Derivation ρ)}
    (h : .node r s parts ∈ t.subtrees) (hu : u ∈ parts) : u ∈ t.subtrees := by
  cases t with
  | word | comment => simp [subtrees] at h
  | node r' s' parts' =>
    rw [subtrees, List.mem_cons] at h ⊢
    rcases h with heq | h
    · cases heq
      rw [subtreesAll_eq]
      exact .inr (List.mem_flatMap.2 ⟨u, hu, self_mem_subtrees u⟩)
    · exact .inr (mem_subtreesAll_of_part h hu)

theorem mem_subtreesAll_of_part {ts : List (Derivation ρ)} {u : Derivation ρ} {r : ρ} {s : Span}
    {parts : List (Derivation ρ)} (h : .node r s parts ∈ subtreesAll ts) (hu : u ∈ parts) :
    u ∈ subtreesAll ts := by
  cases ts with
  | nil => cases h
  | cons t ts =>
    rw [subtreesAll, List.mem_append] at h ⊢
    exact h.imp (mem_subtrees_of_part · hu) (mem_subtreesAll_of_part · hu)

end

def span : Derivation ρ → Span
  | .node _ s _ | .word s | .comment s => s

end Derivation

def Peg.rules : Peg ρ → List ρ
  | .rule r => [r]
  | .seq a b | .alt a b => a.rules ++ b.rules
  | .opt a | .many a => a.rules
  | _ => []

section Nodes

variable {g : Rules ρ} {m : Mode} {k : Trial ρ} {c d : Cursor} {ts : List (Derivation ρ)} {r : ρ}
  {raw : Span} {parts : List (Derivation ρ)}

/-- The nodes a match is made of are matches of the rules its expression names. -/
theorem Takes.node_mem (h : Takes g m k c ts d) (hmem : .node r raw parts ∈ ts) :
    r ∈ k.peg.rules ∧ m.token = false ∧ ∃ w c' d', c.Reaches w c' ∧ raw = ⟨c'.offset, d'.offset⟩ ∧
      Takes g (g.inner r m) (.once (g.body r)) c' parts d' := by
  have hgap : ∀ (m : Mode) (c : Cursor),
      .node r raw parts ∉ (m.gapLeaves c : List (Derivation ρ)) := by
    intro m c hmem
    simp [Mode.gapLeaves] at hmem
  induction h with
  | word | words | one =>
    simp only [Mode.leaf] at hmem
    split at hmem <;> simp at hmem
  | startOfText | endOfText | absent | never | ahead | notAhead | done => cases hmem
  | @rule m r' c parts' d h =>
    split at hmem
    · cases hmem
    · rename_i hm
      cases List.mem_singleton.1 hmem
      exact ⟨List.mem_singleton.2 rfl, by simpa using hm, [], c, d, .refl c, rfl, h⟩
  | left _ ih =>
    obtain ⟨hr, hrest⟩ := ih hmem
    exact ⟨List.mem_append_left _ hr, hrest⟩
  | right _ _ ih =>
    obtain ⟨hr, hrest⟩ := ih hmem
    exact ⟨List.mem_append_right _ hr, hrest⟩
  | present _ ih => exact ih hmem
  | @seq m x y c before mid behind d hx _ ihx ihy =>
    obtain ⟨u, hu⟩ := hx.reaches
    obtain ⟨v, hv⟩ := m.gap_reaches mid
    simp only [List.mem_append] at hmem
    rcases hmem with (hmem | hmem) | hmem
    · obtain ⟨hr, hrest⟩ := ihx hmem
      exact ⟨List.mem_append_left _ hr, hrest⟩
    · exact absurd hmem (hgap _ _)
    · obtain ⟨hr, hm, w, c', d', hw, hrest⟩ := ihy hmem
      exact ⟨List.mem_append_right _ hr, hm, _, c', d', (hu.trans hv).trans hw, hrest⟩
  | many hx _ ihx ih =>
    obtain ⟨u, hu⟩ := hx.reaches
    rcases List.mem_append.1 hmem with hmem | hmem
    · exact ihx hmem
    · obtain ⟨hr, hm, w, c', d', hw, hrest⟩ := ih hmem
      exact ⟨hr, hm, _, c', d', hu.trans hw, hrest⟩
  | @again m x c trees mid others d hx _ ihx ih =>
    obtain ⟨u, hu⟩ := m.gap_reaches c
    obtain ⟨v, hv⟩ := hx.reaches
    simp only [List.mem_append] at hmem
    rcases hmem with (hmem | hmem) | hmem
    · exact absurd hmem (hgap _ _)
    · obtain ⟨hr, hm, w, c', d', hw, hrest⟩ := ihx hmem
      exact ⟨hr, hm, _, c', d', hu.trans hw, hrest⟩
    · obtain ⟨hr, hm, w, c', d', hw, hrest⟩ := ih hmem
      exact ⟨hr, hm, _, c', d', (hu.trans hv).trans hw, hrest⟩

theorem Takes.rule_mem (h : Takes g m k c ts d) (hmem : .node r raw parts ∈ ts) :
    r ∈ k.peg.rules :=
  (h.node_mem hmem).1

/-- So are the nodes that these are made of, and so on. -/
theorem Takes.subtree {m : Mode} {k : Trial ρ} {c d : Cursor} {ts : List (Derivation ρ)}
    (h : Takes g m k c ts d) (hmem : .node r raw parts ∈ Derivation.subtreesAll ts) :
    ∃ m' w c' d', m'.token = false ∧ c.Reaches w c' ∧ raw = ⟨c'.offset, d'.offset⟩ ∧
      Takes g (g.inner r m') (.once (g.body r)) c' parts d' := by
  rw [Derivation.subtreesAll_eq] at hmem
  obtain ⟨t, ht, hmem⟩ := List.mem_flatMap.1 hmem
  cases t with
  | word | comment => simp [Derivation.subtrees] at hmem
  | node r' raw' parts' =>
    obtain ⟨-, hm, w, c', d', hw, hraw, htakes⟩ := h.node_mem ht
    rw [Derivation.subtrees, List.mem_cons] at hmem
    rcases hmem with heq | hmem
    · cases heq
      exact ⟨m, w, c', d', hm, hw, hraw, htakes⟩
    · obtain ⟨m'', w', c'', d'', hm', hw', hraw', htakes'⟩ := htakes.subtree hmem
      exact ⟨m'', _, c'', d'', hm', hw.trans hw', hraw', htakes'⟩
termination_by sizeOf ts
decreasing_by
  have := List.sizeOf_lt_of_mem ht
  simp only [Derivation.node.sizeOf_spec] at this
  omega

/-- A match of a rule inside another begins where that begins, or behind. -/
theorem Takes.le_start_of_subtree (h : Takes g m k c ts d)
    (hmem : .node r raw parts ∈ Derivation.subtreesAll ts) :
    c.offset ≤ raw.start ∧ raw.start ≤ raw.stop := by
  obtain ⟨m', w, c', d', -, hw, rfl, htakes⟩ := h.subtree hmem
  exact ⟨hw.offset_eq ▸ Nat.le_add_right _ _, htakes.inOrder.le⟩

end Nodes

/-- What a gap is made of is skipped as space. -/
theorem GapTo.inGap {s : Source} {c d : Cursor} {ss : List Span} (h : GapTo c ss d) (hc : c.On s) :
    s.InGap c.offset d.offset := by
  induction h with
  | done => exact .refl hc.boundary
  | @blank o ch cs ss d hch _ ih =>
    have hsize := utf8Size_of_isGapChar hch
    have hreach : Cursor.Reaches ⟨o, ch :: cs⟩ [ch] ⟨o + 1, cs⟩ := ⟨rfl, by simp [hsize]⟩
    have hstep : s.InGap o (o + 1) :=
      Source.inGap_add hc (.single (.space cs (isSpace_of_isGapChar hch)))
        (by rw [Text.byteLength_cons, hsize])
    exact hstep.trans (ih (hreach.on hc))
  | @comment o w cs ss d hw _ ih =>
    have hreach : Cursor.Reaches ⟨o, w ++ cs⟩ w ⟨o + Text.byteLength w, cs⟩ := ⟨rfl, rfl⟩
    have hmem : (⟨o, o + Text.byteLength w⟩ : Span) ∈ Text.commentsFrom .code o (w ++ cs) := by
      rw [hw]
      exact List.mem_cons_self
    obtain ⟨_, _, hstart, hstop, hskip⟩ :=
      Source.commented_of_mem_commentsFrom (r := .code) hc trivial hmem
    exact Source.InGap.trans ⟨_, _, hstart, hstop, .single hskip⟩ (ih (hreach.on hc))

end Grammar

namespace Java

open Grammar
open Text (Span Source)

variable {s : Source}
variable {c : Cursor} {r : Rule} {parts : List (Derivation Rule)} {e : Expr} {ps : List Piece}
  {p : Piece}

/-! ## Subtrees -/

/-- Every node of a derivation is a match of its rule somewhere in the text. -/
theorem takes_of_subtree {m : Mode} {k : Trial Rule} {d : Cursor} {ts : List (Derivation Rule)}
    (h : Takes Rule.grammar m k c ts d) (hc : c.On s) {raw : Span} (hr : r.kind = .tree)
    (hmem : .node r raw parts ∈ Derivation.subtreesAll ts) :
    ∃ m' c' d', m'.token = false ∧ c'.On s ∧ raw = ⟨c'.offset, d'.offset⟩ ∧
      Takes Rule.grammar m' (.once (Rule.grammar.body r)) c' parts d' := by
  obtain ⟨m', w, c', d', hm', hw, hraw, htakes⟩ := h.subtree hmem
  have hinner : Rule.grammar.inner r m' = m' := by simp [Rules.inner, Rule.grammar, hr]
  exact ⟨m', c', d', hm', hw.on hc, hraw, hinner ▸ htakes⟩

/-! ## Where the nodes of a tree stem from -/

section Joined

variable {P : Node → Prop} (hP : ∀ n : Node, n.rule? = none → P n)
include hP

theorem all_foldl_apply {sels : List Selector} (he : (Node.expr e).All P)
    (hall : ∀ sel ∈ sels, ∀ n ∈ sel.nodes, n.All P) :
    (Node.expr (sels.foldl Selector.apply e)).All P := by
  induction sels generalizing e with
  | nil => exact he
  | cons sel sels ih =>
    have happly : (Node.expr (sel.apply e)).All P := by
      refine .of_children (hP _ (Selector.rule?_apply e sel)) ?_
      rw [Selector.children_apply]
      intro c hc
      rcases List.mem_cons.1 hc with rfl | hc
      · exact he
      · exact hall sel (by simp) c hc
    exact ih happly fun q hq => hall q (by simp [hq])

theorem all_settle (level : Nat) {ps : List Pending} (hps : ∀ q ∈ ps, (Node.expr q.left).All P)
    (he : (Node.expr e).All P) :
    (∀ q ∈ (Pending.settle level ps e).1, (Node.expr q.left).All P) ∧
      (Node.expr (Pending.settle level ps e).2).All P := by
  induction ps generalizing e with
  | nil => exact ⟨hps, he⟩
  | cons p ps ih =>
    rw [Pending.settle]
    split
    · refine ih (fun q hq => hps q (by simp [hq])) (.of_children (hP _ rfl) ?_)
      intro c hc
      rcases List.mem_cons.1 hc with rfl | hc
      · exact hps p (by simp)
      · obtain rfl := List.mem_singleton.1 hc
        exact he
    · exact ⟨hps, he⟩

theorem all_climb {links : List Link} {waiting : List Pending} (hps : Piece.links? ps = some links)
    (hwait : ∀ q ∈ waiting, (Node.expr q.left).All P) (he : (Node.expr e).All P)
    (hall : ∀ p ∈ ps, ∀ n ∈ p.nodes, n.All P) :
    (Node.expr (climb waiting e links)).All P := by
  fun_induction Piece.links? ps generalizing links waiting e with
  | case1 =>
    cases hps
    exact (all_settle hP 0 hwait he).2
  | case2 op operand ps ih =>
    obtain ⟨links, hlinks, rfl⟩ := Option.map_eq_some_iff.1 hps
    obtain ⟨hsettled, hleft⟩ := all_settle hP op.level hwait he
    rw [climb]
    refine ih hlinks ?_ (hall (.expr operand) (by simp) _ (by simp [Piece.nodes]))
      fun p hp => hall p (by simp [hp])
    intro q hq
    rcases List.mem_cons.1 hq with rfl | hq
    · exact hleft
    · exact hsettled q hq
  | case3 sp t ps ih =>
    obtain ⟨links, hlinks, rfl⟩ := Option.map_eq_some_iff.1 hps
    obtain ⟨hsettled, hleft⟩ := all_settle hP testLevel hwait he
    rw [climb]
    refine ih hlinks hsettled (.of_children (hP _ rfl) ?_) fun p hp => hall p (by simp [hp])
    intro c hc
    rcases List.mem_cons.1 hc with rfl | hc
    · exact hleft
    · exact hall (.test sp t) (by simp) c hc
  | case4 => cases hps

end Joined

namespace Piece

/-- A token is no node that has children, or that another rule makes. -/
theorem leaf_of_token {span : Span} {text : List Char} (hr : r.kind = .token)
    (h : assemble? r span text ps = some p) :
    ∀ n ∈ p.nodes, p.node? = some n ∧ n.span = span ∧ n.children = [] ∧
      ∀ r', n.rule? = some r' → r'.kind = .token := by
  unfold assemble? at h
  cases r
  all_goals first | (exact absurd hr (by decide)) | skip
  all_goals dsimp only at h
  case primitiveType | voidType =>
    obtain ⟨k, -, rfl⟩ := Option.map_eq_some_iff.1 h
    intro n hn
    obtain rfl := List.mem_singleton.1 hn
    refine ⟨rfl, rfl, rfl, fun r' hr' => ?_⟩
    cases k <;> cases hr' <;> rfl
  case modifier | assignmentOperator | infixOperator | prefixOperator | postfixOperator =>
    obtain ⟨k, -, rfl⟩ := Option.map_eq_some_iff.1 h
    intro n hn
    first
    | (obtain rfl := List.mem_singleton.1 hn; exact ⟨rfl, rfl, rfl, fun r' hr' => by cases hr'; rfl⟩)
    | cases hn
  all_goals
    cases h <;>
    · intro n hn
      first
      | (obtain rfl := List.mem_singleton.1 hn; exact ⟨rfl, rfl, rfl, fun r' hr' => by cases hr'; rfl⟩)
      | cases hn

end Piece

/-- A node that a match of rule `r` was made into, from the text of the match or the pieces of its
parts. -/
structure Sprung (s : Source) (r : Rule) (raw : Span) (parts : List (Derivation Rule))
    (text : List Char) (ps : List Piece) (n : Node) : Prop where
  span : n.span = trim s raw
  pieces : piecesOfAll s parts = some ps
  slice : Piece.readsText r = true → s.slice? raw = some text
  made : ∃ p, Piece.assemble? r (trim s raw) text ps = some p ∧ p.node? = some n
  rule : ∀ r', n.rule? = some r' → r'.kind = r.kind ∧ (r.kind = .tree → r' = r)
  children : r ≠ .localsStatement → n.children.Sublist (ps.flatMap Piece.nodes)

/-- `P` holds of nodes joined from others, and of a node that one of the matches `S` was made into
if it holds of the nodes of the match's parts. -/
structure Inherited (s : Source) (S : List (Derivation Rule)) (P : Node → Prop) : Prop where
  joined : ∀ n : Node, n.rule? = none → P n
  sprung : ∀ {r raw parts text ps n}, .node r raw parts ∈ S → Sprung s r raw parts text ps n →
    (∀ q ∈ ps, ∀ m ∈ q.nodes, m.All P) → P n

section Inherited

variable {P : Node → Prop} {S : List (Derivation Rule)}

theorem all_of_node (hP : Inherited s S P) {raw : Span} {text : List Char}
    (hmem : .node r raw parts ∈ S) (hps : piecesOfAll s parts = some ps)
    (htext : Piece.readsText r = true → s.slice? raw = some text)
    (hp : Piece.assemble? r (trim s raw) text ps = some p)
    (hparts : ∀ q ∈ ps, ∀ n ∈ q.nodes, n.All P) : ∀ n ∈ p.nodes, n.All P := by
  have hnodes : ∀ n ∈ ps.flatMap Piece.nodes, n.All P := by
    intro n hn
    obtain ⟨q, hq, hn⟩ := List.mem_flatMap.1 hn
    exact hparts q hq n hn
  have hself : ∀ {n}, n.span = trim s raw → p.node? = some n →
      (∀ r', n.rule? = some r' → r'.kind = r.kind ∧ (r.kind = .tree → r' = r)) →
      (r ≠ .localsStatement → n.children.Sublist (ps.flatMap Piece.nodes)) → P n :=
    fun hspan hnode hrule hchildren =>
      hP.sprung hmem ⟨hspan, hps, htext, ⟨p, hp, hnode⟩, hrule, hchildren⟩ hparts
  cases hkind : r.kind with
  | token =>
    intro n hn
    obtain ⟨hnode, hspan, hchildren, htoken⟩ := Piece.leaf_of_token hkind hp n hn
    refine .of_children (hself hspan hnode (fun r' hr' => ⟨?_, fun h => ?_⟩) fun _ => ?_)
      (by simp [hchildren])
    · rw [htoken r' hr', hkind]
    · rw [hkind] at h
      cases h
    · rw [hchildren]
      exact List.nil_sublist _
  | tree =>
    have hrule : ∀ {n : Node}, n.rule? = some r →
        ∀ r', n.rule? = some r' → r'.kind = r.kind ∧ (r.kind = .tree → r' = r) := by
      intro n hr r' hr'
      obtain rfl := Option.some.inj (hr.symm.trans hr')
      exact ⟨rfl, fun _ => rfl⟩
    -- Only binary and postfix expressions make nodes that no match is made into.
    by_cases hr : Piece.isPlainTree r = true
    · cases Piece.made_of_assemble? hr hp with
      | parts hspan hsublist => exact fun n hn => hnodes n (hsublist.subset hn)
      | pass hwrap hone hspan hsame =>
        rw [hsame]
        exact hparts _ (by simp [hone])
      | @node n hnode hspan hr' hchildren =>
        rw [Piece.nodes_of_node? hnode]
        intro n' hn'
        obtain rfl := List.mem_singleton.1 hn'
        exact .of_children (hself hspan hnode (hrule hr') fun _ => hchildren)
          fun c hc => hnodes c (hchildren.subset hc)
      | @wrap n m hlocals hone hnode hspan hr' hchildren =>
        rw [Piece.nodes_of_node? hnode]
        intro n' hn'
        obtain rfl := List.mem_singleton.1 hn'
        exact .of_children (hself hspan hnode (hrule hr') fun hne => absurd hlocals hne)
          fun c hc => (hnodes m (by simp [hone])).child (hchildren ▸ hc)
    · have hr : r = .binaryExpression ∨ r = .postfixExpression := by
        simpa [Piece.isPlainTree, hkind, Classical.or_iff_not_imp_left] using hr
      rcases hr with rfl | rfl
      · obtain ⟨first, rest, links, rfl, hlinks, rfl⟩ := Piece.eq_of_binaryExpression hp
        have hfirst := hparts (.expr first) (by simp) (.expr first) (by simp [Piece.nodes])
        simpa [Piece.nodes, Expr.ofLinks] using all_climb hP.joined hlinks (by simp) hfirst
          fun q hq => hparts q (by simp [hq])
      · obtain ⟨first, e, sels, rfl, he, rfl⟩ := Piece.eq_of_postfixExpression hp
        have hfirst := hparts first (by simp) (.expr e) (by simp [Piece.nodes_of_expr? he])
        simpa [Piece.nodes] using all_foldl_apply hP.joined hfirst
          fun sel hsel => hparts (.selector sel) (by simp [hsel])

mutual

/-- What nodes inherit holds of all nodes of a derivation. -/
theorem all_of_piecesOf (hP : Inherited s S P) (t : Derivation Rule) (hsub : t.subtrees ⊆ S) {ps : List Piece}
    (h : piecesOf s t = some ps) : ∀ p ∈ ps, ∀ n ∈ p.nodes, n.All P := by
  cases t with
  | word sp =>
    cases h
    simp
  | comment sp =>
    cases h
    simp
  | node r raw parts =>
    rw [Derivation.subtrees, List.cons_subset] at hsub
    have hone : piecesOfAll s [.node r raw parts] = some ps := by simp [piecesOfAll, h]
    obtain ⟨qs, hqs, ⟨-, rfl⟩ | ⟨-, text, htext, hp⟩⟩ := piecesOf_node hone
    · simp
    · obtain ⟨p, hpiece, rfl⟩ := Option.map_eq_some_iff.1 hp
      simpa using all_of_node hP hsub.1 hqs (fun hr => by simpa [hr] using htext) hpiece
        (all_of_piecesOfAll hP parts hsub.2 hqs)

theorem all_of_piecesOfAll (hP : Inherited s S P) (ts : List (Derivation Rule))
    (hsub : Derivation.subtreesAll ts ⊆ S) {ps : List Piece} (h : piecesOfAll s ts = some ps) : ∀ p ∈ ps, ∀ n ∈ p.nodes, n.All P := by
  cases ts with
  | nil =>
    cases h
    simp
  | cons t ts =>
    rw [Derivation.subtreesAll, List.append_subset] at hsub
    rw [piecesOfAll] at h
    split at h
    · rename_i qs rs hqs hrs
      cases h
      intro p hp n hn
      rcases List.mem_append.1 hp with hp | hp
      · exact all_of_piecesOf hP t hsub.1 hqs p hp n hn
      · exact all_of_piecesOfAll hP ts hsub.2 hrs p hp n hn
    · cases h

end

end Inherited

def Rooted (s : Source) (ts : List (Derivation Rule)) (n : Node) : Prop :=
  ∀ r, n.rule? = some r → r.kind = .tree → ∃ raw parts ps text p,
    .node r raw parts ∈ Derivation.subtreesAll ts ∧ n.span = trim s raw ∧
    piecesOfAll s parts = some ps ∧ Piece.assemble? r (trim s raw) text ps = some p ∧
    p.node? = some n ∧ (r ≠ .localsStatement → n.children.Sublist (ps.flatMap Piece.nodes))

theorem rooted_of_piecesOf (s : Source) (t : Derivation Rule) (h : piecesOf s t = some ps) :
    ∀ p ∈ ps, ∀ n ∈ p.nodes, n.All (Rooted s [t]) := by
  refine all_of_piecesOf (S := Derivation.subtreesAll [t]) ⟨fun n hn r hr => ?_,
    fun {r raw parts text ps n} hmem hn _ r' hr' hkind => ?_⟩ t (by simp [Derivation.subtreesAll]) h
  · rw [hn] at hr
    cases hr
  · obtain ⟨hsame, hrule⟩ := hn.rule r' hr'
    obtain rfl := hrule (hsame ▸ hkind)
    obtain ⟨p, hp, hnode⟩ := hn.made
    exact ⟨raw, parts, ps, text, p, hmem, hn.span, hn.pieces, hp, hnode, hn.children⟩

/-! ## Where a match begins -/

theorem isSpace_of_isIdentChar {ch : Char} (h : isIdentChar ch = true) :
    Text.isSpace ch = false ∧ ch ≠ '/' := by
  refine ⟨?_, by rintro rfl; revert h; decide⟩
  rw [Bool.eq_false_iff]
  intro hspace
  simp only [Text.isSpace, Text.isBlank, Text.isBreak, Bool.or_eq_true, beq_iff_eq] at hspace
  rcases hspace with ((rfl | rfl) | rfl) | rfl | rfl <;> revert h <;> decide

/-- The walk over space stays where a name or word begins. -/
theorem skipSpace_of_head {ch : Char} {r : List Char} (hc : c.On s) (hrest : c.rest = ch :: r)
    (hspace : Text.isSpace ch = false) (hslash : ch ≠ '/') :
    s.skipSpace false c.offset = c.offset := by
  unfold Cursor.On at hc
  rw [hrest] at hc
  simp only [Source.skipSpace, Source.forward, hc]
  rw [Text.spaceLength_eq_zero hspace fun h => absurd h hslash, Nat.add_zero]

def AtName (c : Cursor) : Prop := ∃ ch r, c.rest = ch :: r ∧ isIdentChar ch = true

theorem AtName.skipSpace (h : AtName c) (hc : c.On s) :
    s.skipSpace false c.offset = c.offset := by
  obtain ⟨ch, r, hrest, hch⟩ := h
  obtain ⟨hspace, hslash⟩ := isSpace_of_isIdentChar hch
  exact skipSpace_of_head hc hrest hspace hslash

section Words

variable {m : Mode} {c d : Cursor} {ts : List (Derivation Rule)}

theorem takes_wholeWord (ws : List String) (hm : m.token = true)
    (h : Takes Rule.grammar m (.once (Rule.wholeWord ws)) c ts d) :
    ∃ w ∈ ws, c.Reaches w.toList d ∧ ¬ AtName d := by
  obtain ⟨_, mid, _, hword, hahead⟩ := h.of_seq hm
  obtain ⟨rfl, _, hrefuse⟩ := hahead.of_notAhead
  cases hword with
  | words hmem hafter =>
    obtain ⟨t, ht, rfl⟩ := List.mem_map.1 hmem
    refine ⟨t, ht, reaches_of_afterWord? hafter, ?_⟩
    rintro ⟨ch, r, hrest, hch⟩
    exact hrefuse.one_ne hch r hrest

/-- A whole word begins as a name does. -/
theorem atName_of_wholeWord (ws : List String) (hm : m.token = true)
    (hws : ws.all (fun w => w.toList.head?.any isIdentChar) = true)
    (h : Takes Rule.grammar m (.once (Rule.wholeWord ws)) c ts d) :
    AtName c ∧ c.offset < d.offset := by
  obtain ⟨w, hw, hreach, -⟩ := takes_wholeWord ws hm h
  have hhead := List.all_eq_true.1 hws w hw
  obtain ⟨ch, t, hwt⟩ : ∃ ch t, w.toList = ch :: t := by
    cases htl : w.toList with
    | nil => rw [htl] at hhead; cases hhead
    | cons ch t => exact ⟨ch, t, rfl⟩
  rw [hwt] at hreach hhead
  refine ⟨⟨ch, t ++ d.rest, hreach.rest_eq, by simpa using hhead⟩, ?_⟩
  have := hreach.offset_eq
  have := ch.utf8Size_pos
  rw [Text.byteLength_cons] at *
  omega

theorem atName_of_identifier (hm : m.token = true)
    (h : Takes Rule.grammar m (.once (Rule.grammar.body .identifier)) c ts d) : AtName c := by
  have hbody : Rule.grammar.body .identifier = .seq (.notAhead (.rule .keyword))
    (.seq (.one isIdentStart) (.many (.one isIdentChar))) := rfl
  rw [hbody] at h
  obtain ⟨_, mid, _, hahead, hrest⟩ := h.of_seq hm
  obtain ⟨rfl, -⟩ := hahead.of_notAhead
  obtain ⟨_, mid', _, hfirst, -⟩ := hrest.of_seq hm
  obtain ⟨ch, hch, hreach⟩ := hfirst.of_one
  refine ⟨ch, mid'.rest, hreach.rest_eq, ?_⟩
  simp only [isIdentStart, isIdentChar, Bool.or_eq_true, Char.isAlphanum] at hch ⊢
  exact hch.imp_left (·.imp_left .inl)

theorem inner_token (hr : r.kind = .token) : (Rule.grammar.inner r m).token = true := by
  simp [Rules.inner, Rule.grammar, hr]

theorem inner_tree (hr : r.kind = .tree) : Rule.grammar.inner r m = m := by
  simp [Rules.inner, Rule.grammar, hr]

/-- The name of a class begins as a name does. -/
theorem atName_of_classType
    (h : Takes Rule.grammar m (.once (.rule .classType)) c ts d) : AtName c := by
  have hclass : Rule.grammar.body .classType
    = .seq (.rule .qualifiedName) (.opt (.rule .typeArguments)) := rfl
  have hname : Rule.grammar.body .qualifiedName
    = .seq (.rule .identifier) (.many (.seq (.text ".") (.rule .identifier))) := rfl
  obtain ⟨_, h, -⟩ := h.of_rule
  rw [hclass] at h
  cases h with
  | seq h _ =>
    obtain ⟨_, h, -⟩ := h.of_rule
    rw [hname] at h
    cases h with
    | seq h _ =>
      obtain ⟨_, h, -⟩ := h.of_rule
      exact atName_of_identifier (inner_token rfl) h

theorem atName_of_primitiveType
    (h : Takes Rule.grammar m (.once (.rule .primitiveType)) c ts d) : AtName c := by
  obtain ⟨_, h, -⟩ := h.of_rule
  exact (atName_of_wholeWord primitiveWords (inner_token rfl) (by decide) h).1

/-- Behind the word `new` stands space or a comment, since a name follows. -/
theorem spaced_of_kwNew {x : Peg Rule} (hc : c.On s)
    (h : Takes Rule.grammar m (.once (.seq (.rule .kwNew) x)) c ts d) (hm : m.token = false)
    (hx : ∀ {c d ts}, Takes Rule.grammar m (.once x) c ts d → AtName c) :
    AtName c ∧ c.offset + 3 < s.skipSpace false (c.offset + 3) := by
  cases h with
  | @seq _ _ _ _ _ mid _ _ hnew hrest =>
    have hnext := hx hrest
    rw [Mode.gap_of_tree hm] at hnext
    obtain ⟨_, hnew, -⟩ := hnew.of_rule
    have hstart := atName_of_wholeWord ["new"] (inner_token rfl) (by decide) hnew
    obtain ⟨w, hw, hreach, hend⟩ := takes_wholeWord ["new"] (inner_token rfl) hnew
    obtain rfl := List.mem_singleton.1 hw
    have hmid : mid.On s := hreach.on hc
    have hoffset : mid.offset = c.offset + 3 := hreach.offset_eq
    have hgap := gapTo_gap mid
    have hin := hgap.inGap hmid
    have hle := hin.le
    refine ⟨hstart.1, ?_⟩
    rw [← hoffset, ← Source.skipSpace_eq_of_inGap hin, hnext.skipSpace (hgap.on hmid)]
    refine Nat.lt_of_le_of_ne hle fun heq => hend ?_
    have hsame : some mid.rest = some (gap mid).2.rest := by
      rw [← hmid, heq]
      exact hgap.on hmid
    obtain ⟨ch, r, hr, hch⟩ := hnext
    exact ⟨ch, r, by rw [Option.some.inj hsame, hr], hch⟩

end Words

/-! ## Where a node begins -/

structure Origin (s : Source) (n : Node) (r : Rule) (m : Mode) (c d : Cursor)
    (parts : List (Derivation Rule)) (ps : List Piece) : Prop where
  mode : m.token = false
  on : c.On s
  takes : Takes Rule.grammar m (.once (Rule.grammar.body r)) c parts d
  span : n.span = trim s ⟨c.offset, d.offset⟩
  pieces : piecesOfAll s parts = some ps
  made : ∃ text p, Piece.assemble? r n.span text ps = some p ∧ p.node? = some n

theorem origin_of_parse {name text : String} {p : Parsed} (h : parse name text = .ok p) {n : Node}
    (hn : n ∈ (Node.unit p.unit).descendants) (hr : n.rule? = some r) (hkind : r.kind = .tree) :
    ∃ m c d parts ps, Origin p.source n r m c d parts ps := by
  obtain ⟨-, hparse⟩ := parseSource_of_parse h
  obtain ⟨t, ht, hu⟩ := exists_derivation hparse
  have hpieces := piecesOf_of_ofDerivation? hu
  obtain ⟨raw, parts, ps, text, q, hmem, hspan, hps, hq, hnode, -⟩ :=
    rooted_of_piecesOf p.source t hpieces (.unit p.unit) (by simp) _ (by simp [Piece.nodes]) n hn
      r hr hkind
  obtain ⟨d, htakes⟩ := takes_of_derivation? ht
  obtain ⟨m, c, d, hm, hc, rfl, htakes⟩ :=
    takes_of_subtree htakes (Text.dropBytes?_zero _) hkind hmem
  exact ⟨m, c, d, parts, ps, hm, hc, htakes, hspan, hps, text, q, hspan ▸ hq, hnode⟩

/-- The match of a rule that begins with a name or word is cut off only behind. -/
theorem Origin.start {n : Node} {m : Mode} {d : Cursor} (h : Origin s n r m c d parts ps)
    (hskip : s.skipSpace false c.offset = c.offset) : n.span.start = c.offset := by
  obtain ⟨w, hw⟩ := h.takes.reaches
  have := hw.offset_eq
  simp only [h.span, trim, hskip]
  omega

def Expr.creates : Expr → Bool
  | .create _ _ _ | .newSized _ _ _ _ | .newListed _ _ _ _ _ => true
  | _ => false

theorem spaced_of_parse {name text : String} {p : Parsed} (h : parse name text = .ok p)
    (hn : .expr e ∈ (Node.unit p.unit).descendants) (he : e.creates = true) :
    e.span.start + 3 < p.source.skipSpace false (e.span.start + 3) := by
  have hstart : ∀ {r m c d parts ps}, Origin p.source (.expr e) r m c d parts ps → AtName c →
      e.span.start = c.offset := fun ho hc => ho.start (hc.skipSpace ho.on)
  cases e with
  | create sp t es =>
    obtain ⟨m, c, d, parts, ps, ho⟩ := origin_of_parse h hn rfl rfl
    obtain ⟨hname, hlt⟩ := spaced_of_kwNew ho.on ho.takes ho.mode fun hx => by
      cases hx with
      | seq hx _ => exact atName_of_classType hx
    rwa [hstart ho hname]
  | newSized sp t es k | newListed sp t k q es =>
    obtain ⟨m, c, d, parts, ps, ho⟩ := origin_of_parse h hn rfl rfl
    obtain ⟨hname, hlt⟩ := spaced_of_kwNew ho.on ho.takes ho.mode fun hx => by
      cases hx with
      | seq hx _ =>
        cases hx with
        | left hx => exact atName_of_primitiveType hx
        | right _ hx => exact atName_of_classType hx
    rwa [hstart ho hname]
  | _ => cases he

def Node.Wider (n : Node) : Prop :=
  ∀ d, n = .decl d → ∀ h body, .type h body ∈ d.body → h.span ≠ d.head.span

/-- The pieces of a list of derivations come each from one of them. -/
theorem exists_part {ts : List (Derivation Rule)} (h : piecesOfAll s ts = some ps) (hp : p ∈ ps) :
    ∃ t ∈ ts, ∃ qs, piecesOf s t = some qs ∧ p ∈ qs := by
  induction ts generalizing ps with
  | nil =>
    cases h
    cases hp
  | cons t ts ih =>
    rw [piecesOfAll] at h
    split at h
    · rename_i qs rs hqs hrs
      cases h
      rcases List.mem_append.1 hp with hp | hp
      · exact ⟨t, by simp, qs, hqs, hp⟩
      · obtain ⟨t', ht', hrest⟩ := ih hrs hp
        exact ⟨t', by simp [ht'], hrest⟩
    · cases h

/-- Types are among the nodes of the pieces of types and of their bodies only. -/
theorem Piece.rule_of_decl {span : Span} {text : List Char} {d : TypeDecl}
    (h : assemble? r span text ps = some p) (hd : .decl d ∈ p.nodes) :
    r = .typeDeclaration ∨ r = .classBody := by
  have hkind : (∃ k body, p = .member (.type k body)) ∨ ∃ sp ms, p = .members sp ms := by
    cases p with
    | member m => cases m <;> first | exact .inl ⟨_, _, rfl⟩ | simp [nodes, Node.ofMember] at hd
    | members sp ms => exact .inr ⟨sp, ms, rfl⟩
    | forInit i => cases i <;> simp [nodes, Node.ofForInit] at hd
    | selector sel => cases sel <;> simp [nodes, Selector.nodes, Node.ofName] at hd
    | _ => simp [nodes, Node.ofName] at hd
  unfold assemble? at h
  cases r
  all_goals dsimp only at h
  case typeDeclaration => exact .inl rfl
  case classBody => exact .inr rfl
  case forInit | postfixExpression =>
    split at h
    · first | (cases h; simp at hkind) | (split at h <;> cases h <;> simp at hkind)
    · first | cases h | (obtain ⟨_, -, rfl⟩ := Option.map_eq_some_iff.1 h; simp at hkind)
  all_goals first
    | (cases h; done)
    | (cases h; simp at hkind)
    | (obtain ⟨_, -, rfl⟩ := Option.map_eq_some_iff.1 h; simp at hkind)
    | (split at h <;> cases h <;> simp at hkind)
    | (split at h
       · obtain ⟨_, -, rfl⟩ := Option.map_eq_some_iff.1 h
         simp at hkind
       · cases h)

/-- The body of a type begins behind the place where the type begins. -/
theorem skipSpace_lt_classBody {m : Mode} {d : Cursor} (hm : m.token = false) (hc : c.On s)
    (h : Takes Rule.grammar m (.once (Rule.grammar.body .typeDeclaration)) c parts d) {raw : Span}
    {inner : List (Derivation Rule)} (hmem : .node .classBody raw inner ∈ parts) :
    s.skipSpace false c.offset < raw.start := by
  have hbody : Rule.grammar.body .typeDeclaration = .seq Rule.modifierList
      (.seq (.alt (.rule .kwClass) (.rule .kwInterface)) (.seq (.rule .identifier)
        (.seq (.opt (.rule .typeParameters)) (.seq (.opt (.rule .extendsClause))
          (.seq (.opt (.rule .implementsClause)) (.rule .classBody)))))) := rfl
  rw [hbody] at h
  cases h with
  | @seq _ _ _ _ before mid _ _ hmods hrest =>
    cases hrest with
    | @seq _ _ _ _ word mid' behind _ hword hrest =>
      -- The body is in none of the parts up to the word `class`.
      have hin : .node .classBody raw inner ∈ behind := by
        simp only [List.mem_append] at hmem
        rcases hmem with (hmem | hmem) | ((hmem | hmem) | hmem)
        · exact absurd (hmods.rule_mem hmem) (by decide)
        · simp [Mode.gapLeaves] at hmem
        · exact absurd (hword.rule_mem hmem) (by decide)
        · simp [Mode.gapLeaves] at hmem
        · exact hmem
      have hstart : (m.gap mid').2.offset ≤ raw.start := by
        have hsub : .node .classBody raw inner ∈ Derivation.subtreesAll behind := by
          rw [Derivation.subtreesAll_eq]
          exact List.mem_flatMap.2 ⟨_, hin, Derivation.self_mem_subtrees _⟩
        exact (hrest.le_start_of_subtree hsub).1
      have hgapped := m.le_gap mid'
      obtain ⟨hname, hlt⟩ : AtName (m.gap mid).2 ∧ (m.gap mid).2.offset < mid'.offset := by
        cases hword with
        | left h =>
          obtain ⟨_, h, -⟩ := h.of_rule
          exact atName_of_wholeWord ["class"] (inner_token rfl) (by decide) h
        | right _ h =>
          obtain ⟨_, h, -⟩ := h.of_rule
          exact atName_of_wholeWord ["interface"] (inner_token rfl) (by decide) h
      cases hmods with
      | never =>
        rw [Mode.gap_of_tree hm] at hname hlt
        have hgap := gapTo_gap c
        rw [← Source.skipSpace_eq_of_inGap (hgap.inGap hc), hname.skipSpace (hgap.on hc)]
        omega
      | @many _ _ _ first mid₁ _ _ hfirst hothers =>
        have hskip : s.skipSpace false c.offset = c.offset := by
          cases hfirst with
          | left h =>
            obtain ⟨_, h, -⟩ := h.of_rule
            exact (atName_of_wholeWord modifierWords (inner_token rfl) (by decide)
              h).1.skipSpace hc
          | right _ h =>
            obtain ⟨_, h, -⟩ := h.of_rule
            cases h with
            | seq h _ => exact skipSpace_of_head hc h.of_word.rest_eq (by decide) (by decide)
        obtain ⟨v, hv⟩ := hfirst.reaches
        obtain ⟨w, hw⟩ := hothers.reaches
        have := hv.offset_eq
        have := hw.offset_eq
        have := m.le_gap mid
        omega

theorem wider_of_parse {name text : String} {p : Parsed} (h : parse name text = .ok p) :
    (Node.unit p.unit).All Node.Wider := by
  rintro n hn d rfl k body hbody hsame
  obtain ⟨m, c, e, parts, ps, ho⟩ := origin_of_parse h hn rfl rfl
  obtain ⟨text, q, hq, hnode⟩ := ho.made
  -- The inner type is a node of one of the parts, which can only be the body.
  have hinner : .decl ⟨k, body⟩ ∈ ps.flatMap Piece.nodes := by
    obtain ⟨q', hq', rfl⟩ := Option.map_eq_some_iff.1
      (show (Piece.typeMember? _ ps).map Piece.member = some q from hq)
    obtain ⟨d', hd', -, hnodes⟩ := Piece.nodes_typeMember? hq'
    have hsame : Node.decl d' = .decl d := by
      rw [← hd']
      exact Option.some.inj hnode
    rw [hnodes, hsame]
    exact List.mem_append_right _ (List.mem_map.2 ⟨_, hbody, rfl⟩)
  obtain ⟨piece, hpiece, hdecl⟩ := List.mem_flatMap.1 hinner
  obtain ⟨t, ht, qs, hqs, hmem⟩ := exists_part ho.pieces hpiece
  obtain ⟨raw, inner, rfl⟩ : ∃ raw inner, t = .node .classBody raw inner := by
    cases t with
    | word sp | comment sp =>
      cases hqs
      cases hmem
    | node r raw inner =>
      have hone : piecesOfAll p.source [.node r raw inner] = some qs := by simp [piecesOfAll, hqs]
      obtain ⟨rs, -, ⟨-, rfl⟩ | ⟨-, text, -, hp⟩⟩ := piecesOf_node hone
      · cases hmem
      · obtain ⟨p', hp', rfl⟩ := Option.map_eq_some_iff.1 hp
        obtain rfl := List.mem_singleton.1 hmem
        rcases Piece.rule_of_decl hp' hdecl with rfl | rfl
        · exact absurd (ho.takes.rule_mem ht) (by decide)
        · exact ⟨raw, inner, rfl⟩
  obtain ⟨raw', parts', _, _, _, hsub, hspan, -⟩ :=
    (rooted_of_piecesOf p.source _ hqs piece hmem _ hdecl).self .typeDeclaration rfl rfl
  have hlt := skipSpace_lt_classBody ho.mode ho.on ho.takes ht
  have hle : raw.start ≤ raw'.start ∧ raw'.start ≤ raw'.stop := by
    obtain ⟨m', c', d', -, -, rfl, htakes⟩ := takes_of_subtree ho.takes ho.on rfl
      (Derivation.subtreesAll_eq parts ▸
        List.mem_flatMap.2 ⟨_, ht, Derivation.self_mem_subtrees _⟩)
    have hbelow : .node .typeDeclaration raw' parts' ∈ Derivation.subtreesAll inner := by
      simpa [Derivation.subtreesAll, Derivation.subtrees] using hsub
    exact htakes.le_start_of_subtree hbelow
  have hspan : k.span = trim p.source raw' := hspan
  have houter : d.head.span = trim p.source ⟨c.offset, e.offset⟩ := ho.span
  have hstart := congrArg Span.start hsame
  have := p.source.le_skipSpace false raw'.start
  rw [hspan, houter] at hstart
  simp only [trim] at hstart
  omega

end Java

end Transcribe
