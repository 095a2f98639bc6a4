/-
  Transcribe.Proofs.Nest — where the nodes of a syntax tree lie in the text.

  Every node of the tree of a derivation has the span of its own tokens, holds the spans of its
  children in their order, and, unless it is joined from operands, is the match of one rule with
  that span. The operands of a binary expression and the selectors behind a primary are followed
  through the stack that joins them.

  A node in its place is `Good`, and `Sound` if all below it are too. A piece `Fits` a span that its
  nodes lie in, and the pieces of a match stand in a `Row`. While operators wait for their operands
  the stack is `Waiting`: what waits lies before the operand at hand, the latest nearest. Which
  expressions match one node, and how many pieces they leave at least, is checked on the grammar
  (`isLone`, `least`).
  - `fits_of_grown`: so it is for all nodes of a word or node of a derivation.
-/

import Transcribe.Proofs.PieceNodes

namespace Transcribe.Java

open Grammar (InOrder Derivation Lexeme Peg)
open Text (Span Source)

variable {s : Source} {ls : List (Lexeme Rule)}
variable {o d : Nat} {n : Node} {e : Expr} {p : Piece} {r : Rule} {items : List Item}

structure Good (s : Source) (ls : List (Lexeme Rule)) (n : Node) : Prop where
  solid : s.Solid n.span
  inOrder : InOrder n.span.start (n.children.map Node.span) n.span.stop
  born : ∀ r, n.rule? = some r →
    ∃ raw parts p, p.node? = some n ∧ Grown s ls ⟨.node r raw parts, n.span, [p]⟩

abbrev Sound (s : Source) (ls : List (Lexeme Rule)) (n : Node) : Prop := n.All (Good s ls)

/-- A piece whose nodes lie in `span`, and that keeps no other span. -/
structure Fits (s : Source) (ls : List (Lexeme Rule)) (span : Span) (p : Piece) : Prop where
  span? : ∀ q, p.span? = some q → q = span
  inOrder : InOrder span.start (p.nodes.map Node.span) span.stop
  sound : ∀ n ∈ p.nodes, Sound s ls n

theorem InOrder.sublist {lo hi : Nat} {ss ts : List Span} (h : InOrder lo ts hi)
    (hs : ss.Sublist ts) : InOrder lo ss hi := by
  induction hs generalizing lo with
  | slnil => exact h
  | cons t _ ih => exact ih (.of_le (Nat.le_trans h.1 h.2.1) h.2.2)
  | cons_cons t _ ih => exact ⟨h.1, h.2.1, ih h.2.2⟩

theorem Linked.tight {is : List Item} (h : Linked s o is d) (hne : is ≠ []) :
    Linked s (Java.hull is).start is (Java.hull is).stop := by
  have hlast : Linked s o is (is.getLast hne).span.stop := by
    induction is generalizing o with
    | nil => exact absurd rfl hne
    | cons i is ih =>
      cases is with
      | nil => exact ⟨h.1, h.2.1, .refl h.2.1.right⟩
      | cons j is => exact ⟨h.1, h.2.1, ih h.2.2 (by simp)⟩
  cases is with
  | nil => exact absurd rfl hne
  | cons i is => exact ⟨.refl hlast.2.1.left, hlast.2⟩

/-! ## Joined expressions -/

/-- A node joined from an expression and what stands behind it. -/
theorem sound_of_join {b : Span} {ms : List Node} (he : Sound s ls (.expr e)) (hb : s.Solid b)
    (hle : e.span.stop ≤ b.start) (hspan : n.span = e.span.join b) (hrule : n.rule? = none)
    (hchildren : n.children = .expr e :: ms) (hin : InOrder b.start (ms.map Node.span) b.stop)
    (hms : ∀ m ∈ ms, Sound s ls m) :
    n.span = ⟨e.span.start, b.stop⟩ ∧ Sound s ls n := by
  have hsolid : s.Solid e.span := he.self.solid
  have hlt := hsolid.lt
  have hblt := hb.lt
  have hjoin : n.span = ⟨e.span.start, b.stop⟩ := by
    rw [hspan, Span.join, Nat.min_eq_left (by omega), Nat.max_eq_right (by omega)]
  refine ⟨hjoin, Node.All.of_children ⟨?_, ?_, ?_⟩ ?_⟩
  · rw [hjoin]
    exact hsolid.hull hb (by omega)
  · rw [hjoin, hchildren]
    exact ⟨Nat.le_refl _, Nat.le_of_lt hlt, .of_le hle hin⟩
  · rw [hrule]
    rintro r ⟨⟩
  · rw [hchildren]
    rintro c hc
    rcases List.mem_cons.1 hc with rfl | hc
    · exact he
    · exact hms c hc

def Row (s : Source) (ls : List (Lexeme Rule)) : Nat → List Piece → Nat → Prop
  | o, [], d => o = d
  | o, p :: ps, d => ∃ q, o ≤ q.start ∧ s.Solid q ∧ Fits s ls q p ∧ Row s ls q.stop ps d

theorem sound_apply {sel : Selector} {q : Span} (he : Sound s ls (.expr e)) (hq : s.Solid q)
    (hle : e.span.stop ≤ q.start) (hsel : Fits s ls q (.selector sel)) :
    (sel.apply e).span = ⟨e.span.start, q.stop⟩ ∧ Sound s ls (.expr (sel.apply e)) := by
  obtain rfl := hsel.span? sel.span rfl
  exact sound_of_join (n := .expr (sel.apply e)) he hq hle (Selector.span_apply e sel)
    (Selector.rule?_apply e sel) (Selector.children_apply e sel) hsel.inOrder hsel.sound

/-- The selectors behind a primary expression. -/
theorem sound_foldl_apply {sels : List Selector} (he : Sound s ls (.expr e))
    (hrow : Row s ls e.span.stop (sels.map .selector) d) :
    (sels.foldl Selector.apply e).span = ⟨e.span.start, d⟩ ∧
      Sound s ls (.expr (sels.foldl Selector.apply e)) := by
  induction sels generalizing e with
  | nil =>
    obtain rfl : e.span.stop = d := hrow
    exact ⟨rfl, he⟩
  | cons sel sels ih =>
    obtain ⟨q, hle, hq, hfits, hrow⟩ := hrow
    obtain ⟨hspan, hsound⟩ := sound_apply he hq hle hfits
    have hstart : (sel.apply e).span.start = e.span.start := by rw [hspan]
    have hstop : (sel.apply e).span.stop = q.stop := by rw [hspan]
    rw [List.foldl_cons, ← hstart]
    exact ih hsound (by rw [hstop]; exact hrow)

/-- Operators that wait before operand `e`, the latest first; the left operand of the first begins
at `o`. -/
def Waiting (s : Source) (ls : List (Lexeme Rule)) (o : Nat) : List Pending → Expr → Prop
  | [], e => e.span.start = o
  | p :: ps, e => p.left.span.stop ≤ e.span.start ∧ Sound s ls (.expr p.left) ∧
      Waiting s ls o ps p.left

theorem Waiting.congr {ps : List Pending} {e' : Expr} (h : Waiting s ls o ps e)
    (he : e'.span.start = e.span.start) : Waiting s ls o ps e' := by
  cases ps with
  | nil => exact he.trans h
  | cons p ps => exact ⟨he ▸ h.1, h.2⟩

theorem sound_settle (level : Nat) {ps : List Pending} (h : Waiting s ls o ps e)
    (he : Sound s ls (.expr e)) :
    Waiting s ls o (Pending.settle level ps e).1 (Pending.settle level ps e).2 ∧
      (Pending.settle level ps e).2.span.stop = e.span.stop ∧
      Sound s ls (.expr (Pending.settle level ps e).2) := by
  induction ps generalizing e with
  | nil => exact ⟨h, rfl, he⟩
  | cons p ps ih =>
    rw [Pending.settle]
    split
    · obtain ⟨hle, hleft, hwait⟩ := h
      have hlt := he.self.solid.lt
      have hchildren : (Node.expr (p.join e)).children = .expr p.left :: [.expr e] := rfl
      obtain ⟨hspan, hsound⟩ := sound_of_join hleft he.self.solid hle rfl rfl hchildren
        ⟨Nat.le_refl _, Nat.le_of_lt hlt, Nat.le_refl _⟩ (by simpa)
      have hspan : (p.join e).span = ⟨p.left.span.start, e.span.stop⟩ := hspan
      obtain ⟨hwait', hstop, hsound'⟩ := ih (hwait.congr (by rw [hspan])) hsound
      exact ⟨hwait', hstop.trans (by rw [hspan]), hsound'⟩
    · exact ⟨h, rfl, he⟩

theorem settle_zero (ps : List Pending) (e : Expr) : (Pending.settle 0 ps e).1 = [] := by
  induction ps generalizing e with
  | nil => rfl
  | cons p ps ih => rw [Pending.settle, if_pos (Nat.zero_le _)]; exact ih _

/-- The links behind an operand, whatever waits before it. -/
theorem sound_climb {ps : List Piece} {links : List Link} {waiting : List Pending}
    (hps : Piece.links? ps = some links) (hwait : Waiting s ls o waiting e)
    (he : Sound s ls (.expr e)) (hrow : Row s ls e.span.stop ps d) :
    (climb waiting e links).span = ⟨o, d⟩ ∧ Sound s ls (.expr (climb waiting e links)) := by
  fun_induction Piece.links? ps generalizing links waiting e with
  | case1 =>
    cases hps
    obtain rfl : e.span.stop = d := hrow
    obtain ⟨hsettled, hstop, hsound⟩ := sound_settle 0 hwait he
    rw [settle_zero] at hsettled
    exact ⟨Span.mk.injEq _ _ _ _ ▸ ⟨hsettled, hstop⟩, hsound⟩
  | case2 op operand ps ih =>
    obtain ⟨links, hlinks, rfl⟩ := Option.map_eq_some_iff.1 hps
    obtain ⟨q, hle, hq, -, q', hle', hq', hfits, hrow⟩ := hrow
    obtain rfl := hfits.span? operand.span rfl
    obtain ⟨hsettled, hstop, hsound⟩ := sound_settle op.level hwait he
    have hlt := hq.lt
    rw [climb]
    refine ih hlinks ⟨?_, hsound, hsettled⟩ (hfits.sound _ (by simp [Piece.nodes])) hrow
    simp only
    omega
  | case3 sp t ps ih =>
    obtain ⟨links, hlinks, rfl⟩ := Option.map_eq_some_iff.1 hps
    obtain ⟨q, hle, hq, hfits, hrow⟩ := hrow
    obtain rfl := hfits.span? sp rfl
    obtain ⟨hsettled, hstop, hsound⟩ := sound_settle testLevel hwait he
    obtain ⟨hspan, htest⟩ := sound_of_join
      (n := .expr (.instanceOf ((Pending.settle testLevel waiting e).2.span.join sp)
        (Pending.settle testLevel waiting e).2 t)) hsound hq (by omega) rfl rfl rfl hfits.inOrder
      hfits.sound
    simp only [Node.span] at hspan
    rw [climb]
    exact ih hlinks (hsettled.congr (by rw [hspan])) htest (by rw [hspan]; exact hrow)
  | case4 => cases hps

/-! ## Every piece -/

theorem Piece.nodes_of_node? (h : p.node? = some n) : p.nodes = [n] := by
  cases p <;> cases h <;> rfl

theorem Piece.span?_of_node? (h : p.node? = some n) :
    p.span? = some n.span := by
  cases p <;> cases h <;> rfl

theorem fits_of_node {raw span : Span} {parts : List (Derivation Rule)}
    (hgrown : Grown s ls ⟨.node r raw parts, span, [p]⟩) (hsolid : s.Solid span)
    (hnode : p.node? = some n) (hspan : n.span = span) (hrule : n.rule? = some r)
    (hin : InOrder span.start (n.children.map Node.span) span.stop)
    (hsound : ∀ c ∈ n.children, Sound s ls c) : Fits s ls span p := by
  obtain rfl := hspan
  have hborn : ∀ r', n.rule? = some r' →
      ∃ raw parts p, p.node? = some n ∧ Grown s ls ⟨.node r' raw parts, n.span, [p]⟩ := by
    intro r' hr'
    rw [hrule] at hr'
    cases hr'
    exact ⟨raw, parts, p, hnode, hgrown⟩
  refine ⟨?_, ?_, ?_⟩
  · rw [Piece.span?_of_node? hnode]
    rintro q ⟨⟩
    rfl
  · rw [Piece.nodes_of_node? hnode]
    exact ⟨Nat.le_refl _, Nat.le_of_lt hsolid.lt, Nat.le_refl _⟩
  · rw [Piece.nodes_of_node? hnode]
    simpa using Node.All.of_children ⟨hsolid, hin, hborn⟩ hsound

theorem fits_of_made {raw span : Span} {parts : List (Derivation Rule)} {ps : List Piece}
    (hmade : Piece.Made r span ps p) (hgrown : Grown s ls ⟨.node r raw parts, span, [p]⟩)
    (hsolid : s.Solid span)
    (hin : InOrder span.start ((ps.flatMap Piece.nodes).map Node.span) span.stop)
    (hsound : ∀ n ∈ ps.flatMap Piece.nodes, Sound s ls n)
    (hpass : Piece.isWrapper r = true → ∀ q, ps = [q] → Fits s ls span q) : Fits s ls span p := by
  cases hmade with
  | parts hspan hnodes =>
    refine ⟨fun q hq => ?_, InOrder.sublist hin (hnodes.map _), fun n hn => hsound n (hnodes.subset hn)⟩
    rcases hspan with hspan | hspan <;> rw [hspan] at hq <;> cases hq
    rfl
  | pass hr hps hspan hnodes =>
    obtain ⟨hspan', hin', hsound'⟩ := hpass hr _ hps
    exact ⟨hspan ▸ hspan', hnodes ▸ hin', hnodes ▸ hsound'⟩
  | node hnode hspan hrule hchildren =>
    exact fits_of_node hgrown hsolid hnode hspan hrule (InOrder.sublist hin (hchildren.map _))
      fun c hc => hsound c (hchildren.subset hc)
  | @wrap n m _ hps hnode hspan hrule hchildren =>
    rw [hps] at hin hsound
    have hm : Sound s ls m := hsound m (by simp)
    refine fits_of_node hgrown hsolid hnode hspan hrule ?_ fun c hc => hm.child (hchildren ▸ hc)
    obtain ⟨hstart, -, hstop⟩ := hin
    rw [hchildren]
    have hend : InOrder m.span.start (m.children.map Node.span ++ []) span.stop :=
      hm.self.inOrder.append hstop
    rw [List.append_nil] at hend
    exact .of_le hstart hend

def isLone : Peg Rule → Bool
  | .rule r => !Piece.isPlainWord r
  | .seq a b | .alt a b => isLone a && isLone b
  | .opt a | .many a => isLone a
  | .ahead _ | .notAhead _ => true
  | _ => false

theorem Grown.pieces {raw span : Span} {parts : List (Derivation Rule)} {ps : List Piece}
    (h : Grown s ls ⟨.node r raw parts, span, ps⟩) :
    Piece.isPlainWord r = true ∧ ps = [] ∨ Piece.isPlainWord r = false ∧ ∃ p, ps = [p] := by
  have hcases : ∀ {span' text qs}, piecesFor r span' text qs = some ps →
      Piece.isPlainWord r = true ∧ ps = [] ∨ Piece.isPlainWord r = false ∧ ∃ p, ps = [p] := by
    intro span' text qs hps
    unfold piecesFor at hps
    split at hps
    · rename_i hplain
      exact .inl ⟨hplain, by simpa using hps.symm⟩
    · rename_i hplain
      obtain ⟨p, -, rfl⟩ := Option.map_eq_some_iff.1 hps
      exact .inr ⟨by simpa using hplain, p, rfl⟩
  cases h with
  | token _ _ _ _ _ hps => exact hcases hps
  | tree _ _ _ _ _ _ hps => exact hcases hps

theorem Forms.pieces_of_isLone {e : Peg Rule} (h : Forms e items) (he : isLone e = true)
    (hg : ∀ i ∈ items, Grown s ls i) : ∀ i ∈ items, ∃ p, i.pieces = [p] := by
  induction h with
  | word | words => cases he
  | rule =>
    intro i hi
    obtain rfl := List.mem_singleton.1 hi
    rcases (hg _ hi).pieces with ⟨hplain, -⟩ | ⟨-, hone⟩
    · simp [isLone, hplain] at he
    · exact hone
  | seq _ _ ihx ihy =>
    obtain ⟨hx, hy⟩ := Bool.and_eq_true_iff.1 he
    intro i hi
    rcases List.mem_append.1 hi with hi | hi
    · exact ihx hx (fun j hj => hg j (List.mem_append_left _ hj)) i hi
    · exact ihy hy (fun j hj => hg j (List.mem_append_right _ hj)) i hi
  | left _ ih => exact ih (Bool.and_eq_true_iff.1 he).1 hg
  | right _ ih => exact ih (Bool.and_eq_true_iff.1 he).2 hg
  | present _ ih => exact ih he hg
  | many _ _ ihx ih =>
    intro i hi
    rcases List.mem_append.1 hi with hi | hi
    · exact ihx he (fun j hj => hg j (List.mem_append_left _ hj)) i hi
    · exact ih he (fun j hj => hg j (List.mem_append_right _ hj)) i hi
  | absent | never | ahead | notAhead => simp

def least : Peg Rule → Nat
  | .rule r => if Piece.isPlainWord r then 0 else 1
  | .seq a b => least a + least b
  | .alt a b => min (least a) (least b)
  | _ => 0

theorem Forms.least_le {e : Peg Rule} (h : Forms e items) (hg : ∀ i ∈ items, Grown s ls i) :
    least e ≤ (items.flatMap (·.pieces)).length := by
  induction h with
  | word | words | absent | present | never | many | ahead | notAhead => exact Nat.zero_le _
  | rule =>
    rcases (hg _ (List.mem_singleton_self _)).pieces with ⟨hplain, rfl⟩ | ⟨hplain, p, rfl⟩ <;>
      simp [least, hplain]
  | seq _ _ ihx ihy =>
    rw [List.flatMap_append, List.length_append]
    exact Nat.add_le_add (ihx fun i hi => hg i (List.mem_append_left _ hi))
      (ihy fun i hi => hg i (List.mem_append_right _ hi))
  | left _ ih => exact Nat.le_trans (Nat.min_le_left _ _) (ih hg)
  | right _ ih => exact Nat.le_trans (Nat.min_le_right _ _) (ih hg)

/-- The nodes of linked items lie in their order. -/
theorem inOrder_nodes (h : Linked s o items d) (hg : ∀ i ∈ items, Grown s ls i)
    (hf : ∀ i ∈ items, ∀ p ∈ i.pieces, Fits s ls i.span p) :
    InOrder o (((items.flatMap (·.pieces)).flatMap Piece.nodes).map Node.span) d := by
  induction items generalizing o with
  | nil => exact h.le
  | cons i items ih =>
    obtain ⟨hgap, hsolid, hrest⟩ := h
    have hback := ih hrest (fun j hj => hg j (List.mem_cons_of_mem _ hj))
      (fun j hj => hf j (List.mem_cons_of_mem _ hj))
    have hfront : InOrder i.span.start ((i.pieces.flatMap Piece.nodes).map Node.span) i.span.stop := by
      have hempty : InOrder i.span.start [] i.span.stop := Nat.le_of_lt hsolid.lt
      have hfits := hf i List.mem_cons_self
      cases hg i List.mem_cons_self with
      | word => exact hempty
      | token | tree =>
        rcases (hg _ List.mem_cons_self).pieces with ⟨-, rfl⟩ | ⟨-, p, rfl⟩
        · exact hempty
        · simpa using (hfits p (by simp)).inOrder
    rw [List.flatMap_cons, List.flatMap_append, List.map_append]
    exact .of_le hgap.inGap.le (hfront.append hback)

theorem row_of_linked {i : Item} (h : Linked s o (i :: items) d)
    (hone : ∀ j ∈ i :: items, ∃ p, j.pieces = [p])
    (hf : ∀ j ∈ i :: items, ∀ p ∈ j.pieces, Fits s ls j.span p) :
    ∃ p, i.pieces = [p] ∧ Fits s ls i.span p ∧
      Row s ls i.span.stop (items.flatMap (·.pieces)) (Java.hull (i :: items)).stop := by
  induction items generalizing o i with
  | nil =>
    obtain ⟨p, hp⟩ := hone i List.mem_cons_self
    exact ⟨p, hp, hf i List.mem_cons_self p (by simp [hp]), rfl⟩
  | cons j items ih =>
    obtain ⟨p, hp⟩ := hone i List.mem_cons_self
    obtain ⟨-, -, hrest⟩ := h
    obtain ⟨q, hq, hfits, hrow⟩ := ih hrest (fun k hk => hone k (List.mem_cons_of_mem _ hk))
      (fun k hk => hf k (List.mem_cons_of_mem _ hk))
    refine ⟨p, hp, hf i List.mem_cons_self p (by simp [hp]), ?_⟩
    rw [List.flatMap_cons, hq]
    exact ⟨j.span, hrest.1.inGap.le, hrest.2.1, hfits, hrow⟩

theorem fits_of_sound (h : Sound s ls (.expr e)) : Fits s ls e.span (.expr e) := by
  refine ⟨?_, ⟨Nat.le_refl _, Nat.le_of_lt h.self.solid.lt, Nat.le_refl _⟩, by simpa [Piece.nodes]⟩
  rintro q ⟨⟩
  rfl

/-- A wrapper with one piece has one part. -/
theorem eq_singleton_of_wrapper {q : Piece} (hr : Piece.isWrapper r = true)
    (hforms : Forms r.body items) (hg : ∀ i ∈ items, Grown s ls i)
    (hq : items.flatMap (·.pieces) = [q]) :
    ∃ i, items = [i] ∧ i.pieces = [q] := by
  have hlone : isLone r.body = true → ∃ i, items = [i] ∧ i.pieces = [q] := by
    intro hbody
    have hone := hforms.pieces_of_isLone hbody hg
    cases items with
    | nil => cases hq
    | cons i items =>
      obtain ⟨p, hp⟩ := hone i List.mem_cons_self
      cases items with
      | nil => exact ⟨i, rfl, by simpa using hq⟩
      | cons j items =>
        obtain ⟨p', hp'⟩ := hone j (by simp)
        simp [hp, hp'] at hq
  cases r
  case conditionalExpression =>
    cases hforms with
    | @seq _ _ is js hx hy =>
      cases hx with
      | rule =>
        cases hy with
        | absent => exact ⟨_, rfl, by simpa using hq⟩
        | present hy =>
          -- Behind the question mark stand two expressions more.
          have hle := hy.least_le fun i hi => hg i (List.mem_append_right _ hi)
          rw [List.flatMap_append] at hq
          have hlen := congrArg List.length hq
          rw [List.length_append] at hlen
          have htwo : 2 ≤ (js.flatMap (·.pieces)).length := hle
          exact absurd hlen (by simp only [List.length_singleton]; omega)
  all_goals first | exact hlone rfl | cases hr

/-- An expression put together from operands and what stands between and behind them. -/
theorem fits_of_operands {text : List Char} (hr : r = .binaryExpression ∨ r = .postfixExpression)
    (hforms : Forms r.body items) (hne : items ≠ []) (hlinked : Linked s o items d)
    (hg : ∀ i ∈ items, Grown s ls i) (hf : ∀ i ∈ items, ∀ p ∈ i.pieces, Fits s ls i.span p)
    (hp : Piece.assemble? r (Java.hull items) text (items.flatMap (·.pieces)) = some p) :
    Fits s ls (Java.hull items) p := by
  have hlone : isLone r.body = true := by rcases hr with rfl | rfl <;> rfl
  have hone := hforms.pieces_of_isLone hlone hg
  cases items with
  | nil => exact absurd rfl hne
  | cons i items =>
    obtain ⟨q, hq, hfits, hrow⟩ := row_of_linked hlinked hone hf
    rw [List.flatMap_cons, hq] at hp
    rcases hr with rfl | rfl
    · obtain ⟨first, rest, links, hps, hlinks, rfl⟩ := Piece.eq_of_binaryExpression hp
      obtain ⟨rfl, rfl⟩ := List.cons.inj hps
      have hspan := hfits.span? first.span rfl
      have hfirst : Sound s ls (.expr first) := hfits.sound _ (by simp [Piece.nodes])
      have hwait : Waiting s ls first.span.start [] first := rfl
      obtain ⟨hclimb, hsound⟩ := sound_climb hlinks hwait hfirst (hspan ▸ hrow)
      have := fits_of_sound hsound
      rwa [hclimb, hspan] at this
    · obtain ⟨first, e, sels, hps, he, rfl⟩ := Piece.eq_of_postfixExpression hp
      obtain ⟨rfl, hsels⟩ := List.cons.inj (List.singleton_append ▸ hps)
      rw [hsels] at hrow
      have hspan := hfits.span? e.span (by cases q <;> cases he <;> rfl)
      have hfirst : Sound s ls (.expr e) := hfits.sound _ (by simp [Piece.nodes_of_expr? he])
      obtain ⟨hfold, hsound⟩ := sound_foldl_apply hfirst (hspan ▸ hrow)
      have := fits_of_sound hsound
      rwa [hfold, hspan] at this

/-- Every piece of a word or node of a derivation fits its span. -/
theorem fits_of_grown {i : Item} (h : Grown s ls i) : ∀ p ∈ i.pieces, Fits s ls i.span p := by
  induction h with
  | word => simp
  | @token r sp w ps hkind hlex hsolid htext hspells hps =>
    intro p hp
    have hgrown := Grown.token hkind hlex hsolid htext hspells hps
    rcases hgrown.pieces with ⟨-, rfl⟩ | ⟨hplain, q, rfl⟩
    · cases hp
    · obtain rfl := List.mem_singleton.1 hp
      rw [piecesFor, if_neg (by simp [hplain])] at hps
      have hmade : Piece.Made r sp [] p := made_of_token hkind hspells (by simpa using hps)
      exact fits_of_made hmade hgrown hsolid (Nat.le_of_lt hsolid.lt) (by simp) (by simp)
  | @tree r raw parts text ps items hkind hforms hlinked hne hparts htext hps ih =>
    intro p hp
    have hgrown : Grown s ls ⟨.node r raw parts, Java.hull items, ps⟩ :=
      .tree hkind hforms hlinked hne hparts htext hps
    rcases hgrown.pieces with ⟨-, rfl⟩ | ⟨hplain, q, rfl⟩
    · cases hp
    · obtain rfl := List.mem_singleton.1 hp
      rw [piecesFor, if_neg (by simp [hplain])] at hps
      have hp : Piece.assemble? r (Java.hull items) text (items.flatMap (·.pieces)) = some p := by
        simpa using hps
      have hsolid := (hlinked.hull hne).1
      have htight := hlinked.tight hne
      by_cases hr : Piece.isPlainTree r = true
      · refine fits_of_made (Piece.made_of_assemble? hr hp) hgrown hsolid
          (inOrder_nodes htight hparts ih) (fun n hn => ?_) fun hwrap q hq => ?_
        · simp only [List.mem_flatMap] at hn
          obtain ⟨q, ⟨i, hi, hq⟩, hn⟩ := hn
          exact (ih i hi q hq).sound n hn
        · obtain ⟨i, rfl, hi⟩ := eq_singleton_of_wrapper hwrap hforms hparts hq
          exact ih i (by simp) q (by simp [hi])
      · have hr : r = .binaryExpression ∨ r = .postfixExpression := by
          simpa [Piece.isPlainTree, hkind, Classical.or_iff_not_imp_left] using hr
        exact fits_of_operands hr hforms hne hlinked hparts ih hp

/-! ## Whole units -/

/-- The nodes of a unit are in their place. -/
theorem sound_of_derivation {t : Derivation Rule} {u : CompilationUnit} (h : derivation? s = some t)
    (htable : s.comments = commentsOf (Rule.grammar.lexemes t))
    (hu : CompilationUnit.ofDerivation? s t = some u) :
    InOrder u.span.start ((Node.unit u).children.map Node.span) u.span.stop ∧
      ∀ n ∈ (Node.unit u).children, Sound s (Rule.grammar.lexemes t) n := by
  obtain ⟨items, hlinked, hgrown, hunit⟩ := grown_of_derivation h htable hu
  obtain ⟨hspan, hnodes⟩ := Piece.nodes_unit? hunit
  have hfits := fun i hi => fits_of_grown (hgrown i hi)
  rw [List.flatMap_append] at hnodes
  have hnodes : (items.flatMap (·.pieces)).flatMap Piece.nodes = (Node.unit u).children := by
    simpa [Piece.nodes] using hnodes
  constructor
  · by_cases hne : items = []
    · subst hne
      rw [← hnodes, hspan]
      exact Nat.le_max_right _ _
    · rw [← hnodes, hspan, (hlinked.hull hne).2]
      exact inOrder_nodes (hlinked.tight hne) hgrown hfits
  · rw [← hnodes]
    intro n hn
    simp only [List.mem_flatMap] at hn
    obtain ⟨p, ⟨i, hi, hp⟩, hn⟩ := hn
    exact (hfits i hi p hp).sound n hn

def Node.word? : Node → Option String
  | .expr (.name n) => some n.text
  | .expr (.literal _ _ token) => some token
  | .expr (.self _) => some "this"
  | .modifier (.keyword _ k) => some (word k)
  | .type (.primitive _ k) => some (word k)
  | _ => none

/-- A node made by a token rule is that token. -/
theorem Good.token (h : Good s ls n) (hr : n.rule? = some r) (hkind : r.kind = .token) :
    .token r n.span ∈ ls ∧ ∃ w p, s.slice? n.span = some w ∧ Spells r w ∧
      Piece.assemble? r n.span w [] = some p ∧ p.node? = some n := by
  obtain ⟨raw, parts, p, hnode, hgrown⟩ := h.born r hr
  generalize hsp : n.span = sp at hgrown
  cases hgrown with
  | token _ hlex _ htext hspells hps =>
    refine ⟨hlex, _, p, htext, hspells, ?_, hnode⟩
    unfold piecesFor at hps
    split at hps
    · cases hps
    · simpa using hps
  | tree hkind' => rw [hkind] at hkind'; cases hkind'

theorem Good.word {t : String} (h : Good s ls n) (ht : n.word? = some t) :
    s.slice? n.span = some t.toList := by
  unfold Node.word? at ht
  split at ht <;> cases ht
  · rename_i name
    obtain ⟨-, w, p, htext, -, hp, hnode⟩ := h.token rfl rfl
    cases hp
    have hname : (⟨(Node.expr (.name name)).span, String.ofList w⟩ : SimpleName) = name := by
      simpa [Piece.node?, Node.ofName] using hnode
    rw [htext, ← hname, String.toList_ofList]
  · rename_i span kind
    obtain ⟨-, w, p, htext, -, hp, hnode⟩ := h.token rfl (by cases kind <;> rfl)
    have hp : Piece.expr (.literal span kind (String.ofList w)) = p := by
      cases kind <;> exact Option.some.inj hp
    obtain rfl : String.ofList w = t := by
      rw [← hp] at hnode
      simpa [Piece.node?] using hnode
    rw [htext, String.toList_ofList]
  · obtain ⟨-, w, p, htext, hspells, -, -⟩ := h.token rfl rfl
    have hword := hspells.of_wholeWord rfl
    rw [htext, ← List.mem_singleton.1 hword, String.toList_ofList]
  · rename_i span k
    obtain ⟨-, w, p, htext, -, hp, hnode⟩ := h.token rfl rfl
    obtain ⟨k', hk, rfl⟩ := Option.map_eq_some_iff.1
      (show (ofWord? (String.ofList w)).map (fun k => .modifier (.keyword span k)) = some p from hp)
    cases hnode
    rw [htext, word_of_ofWord? hk, String.toList_ofList]
  · rename_i span k
    have hrule : ∃ r, (r = .primitiveType ∨ r = .voidType) ∧
        Node.rule? (.type (.primitive span k)) = some r := by
      cases k <;> exact ⟨_, by simp, rfl⟩
    obtain ⟨r, hr, hrule⟩ := hrule
    obtain ⟨-, w, p, htext, -, hp, hnode⟩ := h.token hrule (by rcases hr with rfl | rfl <;> rfl)
    have hp : (ofWord? (String.ofList w)).map (fun k => .type (.primitive span k)) = some p := by
      rcases hr with rfl | rfl <;> exact hp
    obtain ⟨k', hk, rfl⟩ := Option.map_eq_some_iff.1 hp
    cases hnode
    rw [htext, word_of_ofWord? hk, String.toList_ofList]

theorem inside_of_inOrder (h : InOrder n.span.start (n.children.map Node.span) n.span.stop) :
    (∀ c ∈ n.children, n.span.start ≤ c.span.start ∧ c.span.stop ≤ n.span.stop) ∧
      n.children.Pairwise (fun a b => a.span.stop ≤ b.span.start) := by
  refine ⟨fun c hc => ?_, List.pairwise_map.1 h.pairwise⟩
  have hmem := List.mem_map_of_mem (f := Node.span) hc
  exact ⟨InOrder.pairwise.start_le h hmem, Grammar.Split.stop_le_of_inOrder h hmem⟩

/-- A text that parses and whose table holds exactly the comments between its tokens. Every node but
the unit has the span of its own tokens, not empty and without space or a comment at its ends; the
children of every node lie inside it in their order and apart; a node that is one word is spelled
by its span. -/
theorem spans_of_parse {name text : String} {p : Parsed} {t : Derivation Rule}
    (h : parse name text = .ok p) (ht : derivation? p.source = some t)
    (htable : p.source.comments = (Rule.grammar.lexemes t).filterMap Lexeme.comment?) :
    ∀ n ∈ (Node.unit p.unit).descendants,
      (n ≠ .unit p.unit → p.source.skipSpace false n.span.start = n.span.start ∧
        p.source.skipSpaceBack n.span.stop = n.span.stop ∧ n.span.start < n.span.stop ∧
        n.span.stop ≤ p.source.size) ∧
      (∀ c ∈ n.children, n.span.start ≤ c.span.start ∧ c.span.stop ≤ n.span.stop) ∧
      n.children.Pairwise (fun a b => a.span.stop ≤ b.span.start) ∧
      ∀ w, n.word? = some w → p.source.slice? n.span = some w.toList := by
  obtain ⟨-, hparse⟩ := parseSource_of_parse h
  obtain ⟨t', ht', hu⟩ := exists_derivation hparse
  obtain rfl : t' = t := by rw [ht] at ht'; exact (Option.some.inj ht').symm
  obtain ⟨hin, hsound⟩ := sound_of_derivation ht htable hu
  intro n hn
  rw [Node.descendants_eq, List.mem_cons, List.mem_flatMap] at hn
  rcases hn with rfl | ⟨c, hc, hn⟩
  · obtain ⟨hinside, hapart⟩ := inside_of_inOrder (n := .unit p.unit) hin
    exact ⟨fun hne => absurd rfl hne, hinside, hapart, by rintro w ⟨⟩⟩
  · have hgood := hsound c hc n hn
    obtain ⟨hinside, hapart⟩ := inside_of_inOrder hgood.inOrder
    have hle := Source.le_size hgood.solid.right
    exact ⟨fun _ => ⟨hgood.solid.start, hgood.solid.stop, hgood.solid.lt, hle⟩, hinside, hapart,
      fun w hw => hgood.word hw⟩

def spacedText : String :=
  "class A{int x=a/*1*/.b( this )/*2*/+c //
 ;}"

theorem spans_of_parse_sample : ∃ p t, parse "A.java" spacedText = .ok p ∧
    derivation? p.source = some t ∧
    p.source.comments = (Rule.grammar.lexemes t).filterMap Lexeme.comment? ∧
    ∀ n ∈ (Node.unit p.unit).descendants,
      ∀ w, n.word? = some w → p.source.slice? n.span = some w.toList := by
  have hsame : (derivation? (Source.ofString "A.java" spacedText)).all (fun t =>
      Text.comments spacedText.toList == (Rule.grammar.lexemes t).filterMap Lexeme.comment?)
      = true := by decide +kernel
  obtain ⟨p, h⟩ : ∃ p, parse "A.java" spacedText = .ok p := exists_parsed (by decide +kernel)
  obtain ⟨hsource, hparse⟩ := parseSource_of_parse h
  obtain ⟨t, ht, -⟩ := exists_derivation hparse
  have htable : p.source.comments = (Rule.grammar.lexemes t).filterMap Lexeme.comment? := by
    rw [hsource] at ht ⊢
    rw [ht] at hsame
    exact beq_iff_eq.1 hsame
  exact ⟨p, t, h, ht, htable, fun n hn => (spans_of_parse h ht htable n hn).2.2.2⟩

end Transcribe.Java
