/-
  Transcribe.Proofs.Grouping — which tree a flat binary expression has.

  An operand and what follows it can be put together in many ways. How tightly the operators bind
  singles out one of them: in a left operand nothing looser is left open to the right, in a right
  operand nothing as loose is open to the left. Climbing with a stack of waiting operators finds
  that tree: what waits binds tighter from the bottom to the top, and what is joined is grouped.

  The operators stand in tiers from the loosest to the tightest, and a test has the tier of the
  comparisons. A `Grouping` is a tree over operands, without spans. Read from left to right it is
  its leftmost operand and the links behind it (`first`, `links`); along its right and left spines
  stand the operators that are open to either side. `Grouped` is the condition on the spines.
  `settle` and `climb` build such trees with a stack as the parser builds expressions, and a stack
  before its right operand keeps to `Waits`. For the other direction a grouped tree is taken apart
  along its right spine (`unwind`) into the stack that climbing would have had there.
  - `grouped_ofLinks`, `reading_ofLinks`: the tree found is grouped and has the operands in order.
  - `ofLinks_of_grouped`: a grouped tree is the one found for its operands, so no other is grouped.
  - `ofLinks_eq_toExpr`: an expression is that tree, each node from its first operand to its last.
-/

import Transcribe.Java.Precedence
import Transcribe.Proofs.Match

namespace Transcribe.Java

open Text (Span)
open Grammar (InOrder)

/-! ## How tightly operators bind -/

/-- The operators from the loosest to the tightest; those of one tier bind alike. -/
def InfixOp.tiers : List (List InfixOp) :=
  [[.condOr], [.condAnd], [.or], [.xor], [.and], [.equal, .notEqual],
    [.less, .greater, .lessEqual, .greaterEqual],
    [.leftShift, .rightShift, .unsignedRightShift], [.plus, .minus], [.times, .divide, .remainder]]

def InfixOp.tier (o : InfixOp) : Nat := tiers.findIdx (·.contains o)

def testTier : Nat := InfixOp.less.tier

theorem InfixOp.level_eq (o : InfixOp) : o.level = o.tier + 1 := by cases o <;> rfl

theorem testLevel_eq : testLevel = testTier + 1 := rfl

/-! ## Groupings -/

inductive Grouping where
  | operand (e : Expr)
  | infixed (left : Grouping) (op : InfixOp) (right : Grouping)
  | tested (left : Grouping) (span : Span) (type : Ty)

def Link.span : Link → Span
  | .op _ e => e.span
  | .test s _ => s

namespace Grouping

def first : Grouping → Expr
  | .operand e => e
  | .infixed l _ _ | .tested l _ _ => l.first

def links : Grouping → List Link
  | .operand _ => []
  | .infixed l o r => l.links ++ .op o r.first :: r.links
  | .tested l s t => l.links ++ [.test s t]

/-- The operators met from the root along right operands, up to an operand or a test. -/
def rightSpine : Grouping → List Nat
  | .infixed _ o r => o.tier :: r.rightSpine
  | _ => []

def leftSpine : Grouping → List Nat
  | .operand _ => []
  | .infixed l o _ => o.tier :: l.leftSpine
  | .tested l _ _ => testTier :: l.leftSpine

/-- The operators of a left operand that are open to the right bind at least as tightly as the
operator or test behind it, what is open to the left in a right operand tighter. -/
def Grouped : Grouping → Prop
  | .operand _ => True
  | .infixed l o r => l.Grouped ∧ r.Grouped ∧ (∀ n ∈ l.rightSpine, o.tier ≤ n) ∧
      ∀ n ∈ r.leftSpine, o.tier < n
  | .tested l _ _ => l.Grouped ∧ ∀ n ∈ l.rightSpine, testTier ≤ n

def stop : Grouping → Nat
  | .operand e => e.span.stop
  | .infixed _ _ r => r.stop
  | .tested _ s _ => s.stop

/-- The expression with this tree. Each node begins with its leftmost operand and ends with its
rightmost operand or test. -/
def toExpr : Grouping → Expr
  | .operand e => e
  | .infixed l o r => .binary ⟨l.first.span.start, r.stop⟩ l.toExpr o r.toExpr
  | .tested l s t => .instanceOf ⟨l.first.span.start, s.stop⟩ l.toExpr t

theorem join_eq {a b : Span} (hstart : a.start ≤ b.start) (hstop : a.stop ≤ b.stop) :
    a.join b = ⟨a.start, b.stop⟩ := by
  rw [Span.join, Nat.min_eq_left hstart, Nat.max_eq_right hstop]

theorem span_toExpr (g : Grouping) : g.toExpr.span = ⟨g.first.span.start, g.stop⟩ := by
  cases g <;> rfl

/-! ## Climbing -/

abbrev Stack := List (Grouping × InfixOp)

variable {st : Stack} {g : Grouping} {n : Nat}

def settle (n : Nat) : Stack → Grouping → Stack × Grouping
  | [], g => ([], g)
  | (l, o) :: st, g => if n ≤ o.tier then settle n st (.infixed l o g) else ((l, o) :: st, g)

def climb : Stack → Grouping → List Link → Stack × Grouping
  | st, g, [] => (st, g)
  | st, g, .op o e :: ks =>
    climb (((settle o.tier st g).2, o) :: (settle o.tier st g).1) (.operand e) ks
  | st, g, .test s t :: ks =>
    climb (settle testTier st g).1 (.tested (settle testTier st g).2 s t) ks

def ofLinks (e : Expr) (ks : List Link) : Grouping :=
  (settle 0 (climb [] (.operand e) ks).1 (climb [] (.operand e) ks).2).2

theorem climb_append (st : Stack) (g : Grouping) (ks ls : List Link) :
    climb st g (ks ++ ls) = climb (climb st g ks).1 (climb st g ks).2 ls := by
  induction ks generalizing st g with
  | nil => rfl
  | cons k ks ih =>
    cases k with
    | op o e => exact ih _ _
    | test s t => exact ih _ _

theorem settle_zero_fst (st : Stack) (g : Grouping) : (settle 0 st g).1 = [] := by
  induction st generalizing g with
  | nil => rfl
  | cons p st ih =>
    rw [settle, if_pos (Nat.zero_le _)]
    exact ih _

/-! ## What is found is grouped -/

def Below (n : Nat) (st : Stack) : Prop := ∀ p ∈ st, p.2.tier < n

/-- A stack before the right operand `g`: what waits is grouped and binds tighter towards the top,
and nothing open to the left binds as loosely as what waits for it. -/
def Waits : Stack → Grouping → Prop
  | [], g => g.Grouped
  | (l, o) :: st, g => g.Grouped ∧ (∀ n ∈ g.leftSpine, o.tier < n) ∧
      (∀ n ∈ l.rightSpine, o.tier ≤ n) ∧ Below o.tier st ∧ Waits st l

theorem Waits.grouped (h : Waits st g) : g.Grouped := by
  cases st with
  | nil => exact h
  | cons p st => exact h.1

theorem Below.mono {m : Nat} (h : Below m st) (hmn : m ≤ n) : Below n st :=
  fun p hp => Nat.lt_of_lt_of_le (h p hp) hmn

/-- Another right operand, if it is grouped and what it opens to the left is tighter than the
stack. -/
theorem Waits.replace {g' : Grouping} (h : Waits st g) (hst : Below n st) (hg : g'.Grouped)
    (hleft : ∀ m ∈ g'.leftSpine, n ≤ m ∨ m ∈ g.leftSpine) : Waits st g' := by
  cases st with
  | nil => exact hg
  | cons p st =>
    obtain ⟨-, hopen, hrest⟩ := h
    refine ⟨hg, fun m hm => ?_, hrest⟩
    rcases hleft m hm with hm | hm
    · exact Nat.lt_of_lt_of_le (hst p List.mem_cons_self) hm
    · exact hopen m hm

theorem waits_settle (n : Nat) (h : Waits st g) (hright : ∀ m ∈ g.rightSpine, n ≤ m) :
    Waits (settle n st g).1 (settle n st g).2 ∧ Below n (settle n st g).1 ∧
      ∀ m ∈ (settle n st g).2.rightSpine, n ≤ m := by
  induction st generalizing g with
  | nil => exact ⟨h, by simp [settle, Below], hright⟩
  | cons p st ih =>
    obtain ⟨l, o⟩ := p
    obtain ⟨hg, hleft, hopen, hbelow, hwait⟩ := h
    rw [settle]
    split
    · rename_i hn
      refine ih (hwait.replace (n := o.tier) hbelow ⟨hwait.grouped, hg, hopen, hleft⟩ ?_) ?_
      · exact List.forall_mem_cons.2 ⟨.inl (Nat.le_refl _), fun m hm => .inr hm⟩
      · simp only [rightSpine, List.mem_cons, forall_eq_or_imp]
        exact ⟨hn, hright⟩
    · rename_i hn
      refine ⟨⟨hg, hleft, hopen, hbelow, hwait⟩, ?_, hright⟩
      intro q hq
      rcases List.mem_cons.1 hq with rfl | hq
      · exact Nat.lt_of_not_le hn
      · exact Nat.lt_trans (hbelow q hq) (Nat.lt_of_not_le hn)

theorem waits_climb (ks : List Link) (h : Waits st g) (hright : g.rightSpine = []) :
    Waits (climb st g ks).1 (climb st g ks).2 ∧ (climb st g ks).2.rightSpine = [] := by
  fun_induction climb st g ks with
  | case1 => exact ⟨h, hright⟩
  | case2 st g o e ks ih =>
    obtain ⟨hwait, hbelow, hopen⟩ := waits_settle o.tier h (by simp [hright])
    exact ih ⟨trivial, by simp [leftSpine], hopen, hbelow, hwait⟩ rfl
  | case3 st g s t ks ih =>
    obtain ⟨hwait, hbelow, hopen⟩ := waits_settle testTier h (by simp [hright])
    refine ih (hwait.replace hbelow ⟨hwait.grouped, hopen⟩ ?_) rfl
    exact List.forall_mem_cons.2 ⟨.inl (Nat.le_refl _), fun m hm => .inr hm⟩

theorem grouped_ofLinks (e : Expr) (ks : List Link) : (ofLinks e ks).Grouped := by
  obtain ⟨hwait, hright⟩ := waits_climb ks (show Waits [] (.operand e) from trivial) rfl
  exact (waits_settle 0 hwait (by simp [hright])).1.grouped

/-! ## Nothing is lost -/

def bottom : Stack → Grouping → Grouping
  | [], g => g
  | (l, _) :: st, _ => bottom st l

def held : Stack → Grouping → List Link
  | [], g => g.links
  | (l, o) :: st, g => held st l ++ .op o g.first :: g.links

theorem held_infixed (st : Stack) (l g : Grouping) (o : InfixOp) :
    held st (.infixed l o g) = held st l ++ .op o g.first :: g.links := by
  cases st with
  | nil => rfl
  | cons p st => simp [held, links, first]

theorem first_bottom_congr (st : Stack) {g' : Grouping} (h : g'.first = g.first) :
    (bottom st g').first = (bottom st g).first := by
  cases st with
  | nil => exact h
  | cons p st => rfl

theorem held_settle (n : Nat) (st : Stack) (g : Grouping) :
    held (settle n st g).1 (settle n st g).2 = held st g ∧
      (bottom (settle n st g).1 (settle n st g).2).first = (bottom st g).first := by
  induction st generalizing g with
  | nil => exact ⟨rfl, rfl⟩
  | cons p st ih =>
    obtain ⟨l, o⟩ := p
    rw [settle]
    split
    · obtain ⟨hheld, hfirst⟩ := ih (.infixed l o g)
      exact ⟨hheld.trans (held_infixed st l g o), hfirst.trans (first_bottom_congr st rfl)⟩
    · exact ⟨rfl, rfl⟩

theorem held_tested (st : Stack) (g : Grouping) (s : Span) (t : Ty) :
    held st (.tested g s t) = held st g ++ [Link.test s t] := by
  cases st with
  | nil => rfl
  | cons p st => simp [held, links, first]

theorem held_climb (st : Stack) (g : Grouping) (ks : List Link) :
    held (climb st g ks).1 (climb st g ks).2 = held st g ++ ks ∧
      (bottom (climb st g ks).1 (climb st g ks).2).first = (bottom st g).first := by
  fun_induction climb st g ks with
  | case1 => simp
  | case2 st g o e ks ih =>
    obtain ⟨hheld, hfirst⟩ := held_settle o.tier st g
    rw [ih.1, ih.2]
    exact ⟨by simp [held, hheld, first, links], hfirst⟩
  | case3 st g s t ks ih =>
    obtain ⟨hheld, hfirst⟩ := held_settle testTier st g
    rw [ih.1, ih.2, held_tested, hheld, ← hfirst]
    exact ⟨by simp, first_bottom_congr _ rfl⟩

theorem reading_ofLinks (e : Expr) (ks : List Link) :
    (ofLinks e ks).first = e ∧ (ofLinks e ks).links = ks := by
  obtain ⟨hheld, hfirst⟩ := held_climb [] (.operand e) ks
  obtain ⟨hheld', hfirst'⟩ :=
    held_settle 0 (climb [] (.operand e) ks).1 (climb [] (.operand e) ks).2
  rw [settle_zero_fst] at hheld' hfirst'
  exact ⟨hfirst'.trans hfirst, hheld'.trans hheld⟩

/-! ## Nothing else is grouped -/

def unwind : Stack → Grouping → Stack × Grouping
  | st, .infixed l o r => unwind ((l, o) :: st) r
  | st, g => (st, g)

/-- What a tree leaves open to the right is joined to that tree again. -/
theorem settle_unwind (h : ∀ m ∈ g.rightSpine, n ≤ m) :
    settle n (unwind st g).1 (unwind st g).2 = settle n st g := by
  induction g generalizing st with
  | operand | tested => rfl
  | infixed l o r _ ihr =>
    simp only [rightSpine, List.mem_cons, forall_eq_or_imp] at h
    rw [unwind, ihr h.2, settle, if_pos h.1]

theorem settle_of_below (h : Below n st) :
    settle n st g = (st, g) := by
  cases st with
  | nil => rfl
  | cons p st =>
    have := h p List.mem_cons_self
    rw [settle, if_neg (by omega)]

/-- Climbing along a grouped tree above looser operators comes to the end of its right spine. -/
theorem climb_links (hg : g.Grouped) (hst : ∀ n ∈ g.leftSpine, Below n st) :
    climb st (.operand g.first) g.links = unwind st g := by
  induction g generalizing st with
  | operand e => rfl
  | infixed l o r ihl ihr =>
    obtain ⟨hl, hr, hopen, htight⟩ := hg
    simp only [leftSpine, List.mem_cons, forall_eq_or_imp] at hst
    have hright : ∀ n ∈ r.leftSpine, Below n ((l, o) :: st) := by
      intro n hn
      refine List.forall_mem_cons.2 ⟨htight n hn, ?_⟩
      exact hst.1.mono (Nat.le_of_lt (htight n hn))
    rw [first, links, climb_append, ihl hl hst.2, climb, settle_unwind hopen,
      settle_of_below hst.1, ihr hr hright]
    rfl
  | tested l s t ih =>
    obtain ⟨hl, hopen⟩ := hg
    simp only [leftSpine, List.mem_cons, forall_eq_or_imp] at hst
    rw [first, links, climb_append, ih hl hst.2, climb, settle_unwind hopen, settle_of_below hst.1]
    rfl

/-- A grouped tree is the one found for its operands. -/
theorem ofLinks_of_grouped (hg : g.Grouped) : ofLinks g.first g.links = g := by
  have hclimb : climb [] (.operand g.first) g.links = unwind [] g :=
    climb_links hg (by simp [Below])
  rw [ofLinks, hclimb, settle_unwind (fun _ _ => Nat.zero_le _)]
  rfl

/-! ## Expressions -/

def Before : Nat → Stack → Prop
  | _, [] => True
  | n, (l, _) :: st => l.first.span.start ≤ l.stop ∧ l.stop ≤ n ∧ Before l.first.span.start st

def toPending (st : Stack) : List Pending := st.map fun p => ⟨p.1.toExpr, p.2⟩

theorem toExpr_settle (n : Nat) (hst : Before g.first.span.start st)
    (hg : g.first.span.start ≤ g.stop) :
    Pending.settle (n + 1) (toPending st) g.toExpr
      = (toPending (settle n st g).1, (settle n st g).2.toExpr) ∧
    Before (settle n st g).2.first.span.start (settle n st g).1 ∧
    (settle n st g).2.first.span.start ≤ (settle n st g).2.stop ∧
    (settle n st g).2.stop = g.stop := by
  induction st generalizing g with
  | nil => exact ⟨rfl, trivial, hg, rfl⟩
  | cons p st ih =>
    obtain ⟨l, o⟩ := p
    obtain ⟨hl, hle, hst'⟩ := hst
    have hjoin : Pending.join ⟨l.toExpr, o⟩ g.toExpr = (infixed l o g).toExpr := by
      rw [Pending.join, toExpr, span_toExpr, span_toExpr, join_eq]
      · exact Nat.le_trans hl hle
      · exact Nat.le_trans hle hg
    have hsame : n + 1 ≤ o.level ↔ n ≤ o.tier := by
      rw [o.level_eq]
      omega
    rw [toPending, List.map_cons, Pending.settle, settle]
    simp only [hsame]
    split
    · rw [hjoin]
      have hstop : l.first.span.start ≤ g.stop := by omega
      exact ih (g := .infixed l o g) hst' hstop
    · exact ⟨rfl, ⟨hl, hle, hst'⟩, hg, rfl⟩

theorem toExpr_settle_zero (hst : Before g.first.span.start st) (hg : g.first.span.start ≤ g.stop) :
    (Pending.settle 0 (toPending st) g.toExpr).2 = (settle 0 st g).2.toExpr := by
  have hzero : ∀ (ps : List Pending) (e : Expr), Pending.settle 0 ps e = Pending.settle 1 ps e := by
    intro ps
    induction ps with
    | nil => exact fun _ => rfl
    | cons p ps ih =>
      intro e
      have hpos : 1 ≤ p.op.level := by
        rw [p.op.level_eq]
        omega
      rw [Pending.settle, Pending.settle, if_pos (Nat.zero_le _), if_pos hpos, ih]
  rw [hzero, (toExpr_settle 0 hst hg).1]

theorem toExpr_climb {ks : List Link} {d : Nat} (hst : Before g.first.span.start st)
    (hg : g.first.span.start ≤ g.stop) (hks : InOrder g.stop (ks.map Link.span) d) :
    Java.climb (toPending st) g.toExpr ks
      = (settle 0 (climb st g ks).1 (climb st g ks).2).2.toExpr := by
  fun_induction climb st g ks with
  | case1 st g => exact toExpr_settle_zero hst hg
  | case2 st g o e ks ih =>
    obtain ⟨hsettle, hst', hg', hstop⟩ := toExpr_settle o.tier hst hg
    obtain ⟨hle, he, hks⟩ := hks
    rw [Java.climb, o.level_eq, hsettle]
    refine ih ⟨hg', ?_, hst'⟩ he hks
    rw [hstop]
    exact hle
  | case3 st g s t ks ih =>
    obtain ⟨hsettle, hst', hg', hstop⟩ := toExpr_settle testTier hst hg
    obtain ⟨hle, hs, hks⟩ := hks
    simp only [Link.span] at hle hs
    have hjoin : Expr.instanceOf ((settle testTier st g).2.toExpr.span.join s)
        (settle testTier st g).2.toExpr t = (tested (settle testTier st g).2 s t).toExpr := by
      rw [toExpr, span_toExpr, join_eq]
      · exact Nat.le_trans hg' (hstop ▸ hle)
      · exact Nat.le_trans (hstop ▸ hle) hs
    rw [Java.climb, testLevel_eq, hsettle]
    simp only
    rw [hjoin]
    refine ih hst' ?_ hks
    show (settle testTier st g).2.first.span.start ≤ s.stop
    omega

/-- An expression is the tree found for its operands, if they stand one behind the other. -/
theorem ofLinks_eq_toExpr {e : Expr} {ks : List Link} {d : Nat} (he : e.span.start ≤ e.span.stop)
    (hks : InOrder e.span.stop (ks.map Link.span) d) :
    Expr.ofLinks e ks = (ofLinks e ks).toExpr :=
  @toExpr_climb [] (.operand e) _ _ trivial he hks

end Grouping

end Transcribe.Java
