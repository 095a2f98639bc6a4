/-
  Transcribe.Proofs.Total.Meaning — what a parsing expression means, without a search for it.

  The meaning is given by rules alone: which trees an expression gives at a place and where it
  ends, or that it gives none (`Answer`). Choice is ordered: a later alternative counts only where
  the earlier ones give none. Repetition is greedy: it ends only where one more gives none. Between
  the parts of a sequence and between repetitions stands all of a gap, unless inside a token.
  Lookaheads give no trees.

  `Parses` has a rule for each way to match and for each way not to, so unlike a derivation of a
  match it speaks of failure without a run. A gap has rules of its own: a `Filler` is one blank,
  break or comment, and `Fillers` as many as there are. Fuel and attempts do not occur.
  - `fillers_iff`: the gap that is skipped is as many blanks, breaks and comments as there are.
  - `Parses.unique`: an expression gives one answer at a place.
  - `parses_of_run`: the answer of a run that finished is this one.
-/

import Transcribe.Proofs.Match

namespace Transcribe.Grammar

open Text (Span byteLength isBreak)

variable {o : Nat} {cs w : List Char} {c d : Cursor} {ss : List Span} {m : Mode}

/-! ## Gaps -/

/-- One blank, break or comment from `c` to `d`, and the comment. A line comment ends at a break or
at the end of the text, a block comment at the first `*/`. -/
inductive Filler : Cursor → List Span → Cursor → Prop where
  | blank {o : Nat} {ch : Char} {cs : List Char} (h : isGapChar ch = true) :
      Filler ⟨o, ch :: cs⟩ [] ⟨o + 1, cs⟩
  | line {o : Nat} {w cs : List Char} (hw : ∀ ch ∈ w, isBreak ch = false)
      (hcs : ∀ ch ∈ cs.head?, isBreak ch = true) :
      Filler ⟨o, '/' :: '/' :: (w ++ cs)⟩ [⟨o, o + 2 + byteLength w⟩] ⟨o + 2 + byteLength w, cs⟩
  | block {o : Nat} {w cs : List Char} (hw : ¬ ['*', '/'] <:+: w) :
      Filler ⟨o, '/' :: '*' :: (w ++ '*' :: '/' :: cs)⟩ [⟨o, o + 2 + byteLength w + 2⟩]
        ⟨o + 2 + byteLength w + 2, cs⟩

inductive Fillers : Cursor → List Span → Cursor → Prop where
  | done {c : Cursor} (h : ∀ ss d, ¬ Filler c ss d) : Fillers c [] c
  | more {c mid d : Cursor} {ss ts : List Span} (h : Filler c ss mid) (rest : Fillers mid ts d) :
      Fillers c (ss ++ ts) d

theorem gapFrom_blank {ch : Char} (h : isGapChar ch = true) :
    gapFrom .space o (ch :: cs) = gapFrom .space (o + 1) cs := by
  have hslash : ch ≠ '/' := by rintro rfl; cases h
  rw [gapFrom, if_pos h]
  · intro _ hch
    exact absurd hch hslash
  · intro _ hch
    exact absurd hch hslash

theorem gapFrom_line {start : Nat} (hw : ∀ ch ∈ w, isBreak ch = false)
    (hcs : ∀ ch ∈ cs.head?, isBreak ch = true) :
    gapFrom (.line start) o (w ++ cs)
      = keepComment ⟨start, o + byteLength w⟩ (gapFrom .space (o + byteLength w) cs) := by
  induction w generalizing o with
  | nil =>
    cases cs with
    | nil => rfl
    | cons ch cs =>
      have hch : isBreak ch = true := hcs ch rfl
      rw [gapFrom_blank (isGapChar_of_isBreak hch), List.nil_append, gapFrom, if_pos hch]
      rfl
  | cons ch w ih =>
    obtain ⟨hch, hw⟩ := List.forall_mem_cons.1 hw
    rw [List.cons_append, gapFrom, if_neg (by simp [hch]), ih hw, Text.byteLength_cons,
      Nat.add_assoc]

theorem gapFrom_block {start : Nat} {opening : Cursor} (hw : ¬ ['*', '/'] <:+: w) :
    gapFrom (.block start opening) o (w ++ '*' :: '/' :: cs)
      = keepComment ⟨start, o + byteLength w + 2⟩ (gapFrom .space (o + byteLength w + 2) cs) := by
  induction w generalizing o with
  | nil => rfl
  | cons ch w ih =>
    have htail : ¬ ['*', '/'] <:+: w := fun h => hw (h.trans (List.suffix_cons ch w).isInfix)
    rw [List.cons_append, gapFrom, ih htail, Text.byteLength_cons, Nat.add_assoc o]
    intro cs' hch hcs'
    cases w with
    | nil => cases hcs'
    | cons d w =>
      obtain ⟨rfl, -⟩ := List.cons.inj hcs'
      exact hw ⟨[], w, by rw [hch]; rfl⟩

/-- The gap goes on behind each blank, break and comment. -/
theorem gap_of_filler (h : Filler c ss d) :
    gap c = (ss ++ (gap d).1, (gap d).2) := by
  cases h with
  | blank h => exact gapFrom_blank h
  | line hw hcs => exact gapFrom_line hw hcs
  | block hw => exact gapFrom_block hw

def Within.Inside (c : Cursor) (o : Nat) (cs : List Char) : Within → Prop
  | .space => c = ⟨o, cs⟩
  | .line start => ∃ w, c = ⟨start, '/' :: '/' :: (w ++ cs)⟩ ∧ o = start + 2 + byteLength w ∧
      ∀ ch ∈ w, isBreak ch = false
  | .block start opening => opening = c ∧ ∃ w, c = ⟨start, '/' :: '*' :: (w ++ cs)⟩ ∧
      o = start + 2 + byteLength w ∧ ¬ ['*', '/'] <:+: w ++ cs.take 1

theorem fillers_gapFrom {k : Within} (h : k.Inside c o cs) :
    Fillers c (gapFrom k o cs).1 (gapFrom k o cs).2 := by
  fun_induction gapFrom k o cs generalizing c with
  | case1 o cs ih =>
    obtain rfl := h
    exact ih ⟨[], rfl, rfl, by simp⟩
  | case2 o cs ih =>
    obtain rfl := h
    refine ih ⟨rfl, [], rfl, rfl, fun hin => ?_⟩
    have hlen := hin.length_le
    rw [List.nil_append, List.length_take] at hlen
    have htwo : ['*', '/'].length = 2 := rfl
    omega
  | case3 o ch cs _ _ hch ih =>
    obtain rfl := h
    exact .more (.blank hch) (ih rfl)
  | case4 o ch cs hline hblock hch =>
    obtain rfl := h
    refine .done fun ss d hfill => ?_
    cases hfill with
    | blank h => exact hch h
    | line => exact hline _ rfl rfl
    | block => exact hblock _ rfl rfl
  | case5 o =>
    obtain rfl := h
    exact .done (by rintro _ _ ⟨⟩)
  | case6 start o ch cs hch ih =>
    obtain ⟨w, rfl, rfl, hw⟩ := h
    have hgap := isGapChar_of_isBreak hch
    exact .more (.line hw (by simpa using hch)) (.more (.blank hgap) (ih rfl))
  | case7 start o ch cs hch ih =>
    obtain ⟨w, rfl, rfl, hw⟩ := h
    refine ih ⟨w ++ [ch], by simp, by simp [Nat.add_assoc], ?_⟩
    simpa [or_imp, forall_and] using And.intro hw hch
  | case8 start o =>
    obtain ⟨w, rfl, rfl, hw⟩ := h
    exact .more (.line hw (by simp)) (.done (by rintro _ _ ⟨⟩))
  | case9 start opening o cs ih =>
    obtain ⟨rfl, w, rfl, rfl, hw⟩ := h
    refine .more (.block fun hin => hw (hin.trans ?_)) (ih rfl)
    exact (List.prefix_append _ _).isInfix
  | case10 start opening o ch cs hne ih =>
    obtain ⟨rfl, w, rfl, rfl, hw⟩ := h
    refine ih ⟨rfl, w ++ [ch], by simp, by simp [Nat.add_assoc], fun hin => ?_⟩
    cases cs with
    | nil => exact hw (by simpa using hin)
    | cons d cs =>
      rcases List.infix_concat_iff.1 hin with ⟨v, hv⟩ | hin
      · have hlast : v ++ ['*', '/'] = w ++ [ch, d] := by simpa using hv
        obtain ⟨-, hlast⟩ := List.append_inj' hlast rfl
        cases hlast
        exact hne _ rfl rfl
      · exact hw hin
  | case11 start opening o =>
    obtain ⟨rfl, w, rfl, rfl, hw⟩ := h
    refine .done fun ss d hfill => ?_
    generalize hcs : w ++ [] = v at hfill
    cases hfill with
    | blank h => cases h
    | @block _ v cs _ =>
      refine hw ⟨v, cs, ?_⟩
      simpa using hcs.symm

theorem fillers_gap (c : Cursor) : Fillers c (gap c).1 (gap c).2 := fillers_gapFrom rfl

/-- A gap is skipped whole. -/
theorem fillers_iff : Fillers c ss d ↔ gap c = (ss, d) := by
  constructor
  · intro h
    induction h with
    | @done c h =>
      have hgap := fillers_gap c
      generalize gap c = p at hgap
      obtain ⟨ss, d⟩ := p
      cases hgap with
      | done => rfl
      | more hfill => exact absurd hfill (h _ _)
    | more h _ ih => rw [gap_of_filler h, ih]
  · intro h
    have hgap := fillers_gap c
    rwa [h] at hgap

def Between : Bool → Cursor → List Span → Cursor → Prop
  | true, c, ss, d => ss = [] ∧ d = c
  | false, c, ss, d => Fillers c ss d

theorem between_iff :
    Between m.token c ss d ↔ m.gap c = (ss, d) := by
  cases hm : m.token with
  | false => rw [Mode.gap_of_tree hm]; exact fillers_iff
  | true => rw [Mode.gap_of_token hm, Prod.mk.injEq, eq_comm, eq_comm (a := c)]; rfl

theorem between_gap (m : Mode) (c : Cursor) : Between m.token c (m.gap c).1 (m.gap c).2 :=
  between_iff.2 rfl

/-! ## Expressions -/

variable {ρ : Type}

abbrev Answer (ρ : Type) : Type := Option (List (Derivation ρ) × Cursor)

def wordAt (token : Bool) (c : Cursor) (w rest : List Char) : Answer ρ :=
  let stop := c.offset + byteLength w
  some (if token then [] else [.word ⟨c.offset, stop⟩], ⟨stop, rest⟩)

/-- What an expression, or its further repetitions, mean at a place, inside of a token or not. -/
inductive Parses (g : Rules ρ) : Bool → Trial ρ → Cursor → Answer ρ → Prop where
  | word {k w c rest} (h : c.rest = w ++ rest) :
      Parses g k (.once (.word w)) c (wordAt k c w rest)
  | noWord {k w c} (h : ¬ w <+: c.rest) : Parses g k (.once (.word w)) c none
  | words {k ws before w behind c rest} (hws : ws = before ++ w :: behind)
      (hbefore : ∀ v ∈ before, ¬ v <+: c.rest) (h : c.rest = w ++ rest) :
      Parses g k (.once (.words ws)) c (wordAt k c w rest)
  | noWords {k ws c} (h : ∀ w ∈ ws, ¬ w <+: c.rest) : Parses g k (.once (.words ws)) c none
  | one {k p c ch rest} (hc : c.rest = ch :: rest) (h : p ch = true) :
      Parses g k (.once (.one p)) c (wordAt k c [ch] rest)
  | noOne {k p c} (h : ∀ ch ∈ c.rest.head?, p ch = false) : Parses g k (.once (.one p)) c none
  | startOfText {k c} (h : c.offset = 0) : Parses g k (.once .startOfText) c (some ([], c))
  | noStart {k c} (h : c.offset ≠ 0) : Parses g k (.once .startOfText) c none
  | endOfText {k c} (h : c.rest = []) : Parses g k (.once .endOfText) c (some ([], c))
  | noEnd {k c} (h : c.rest ≠ []) : Parses g k (.once .endOfText) c none
  | rule {k r c parts d}
      (h : Parses g (k || g.kind r == .token) (.once (g.body r)) c (some (parts, d))) :
      Parses g k (.once (.rule r)) c
        (some (if k then [] else [.node r ⟨c.offset, d.offset⟩ parts], d))
  | noRule {k r c} (h : Parses g (k || g.kind r == .token) (.once (g.body r)) c none) :
      Parses g k (.once (.rule r)) c none
  | seq {k x y c ts mid ss mid' us d} (hx : Parses g k (.once x) c (some (ts, mid)))
      (hgap : Between k mid ss mid') (hy : Parses g k (.once y) mid' (some (us, d))) :
      Parses g k (.once (.seq x y)) c (some (ts ++ ss.map .comment ++ us, d))
  | noFirst {k x y c} (hx : Parses g k (.once x) c none) : Parses g k (.once (.seq x y)) c none
  | noSecond {k x y c ts mid ss mid'} (hx : Parses g k (.once x) c (some (ts, mid)))
      (hgap : Between k mid ss mid') (hy : Parses g k (.once y) mid' none) :
      Parses g k (.once (.seq x y)) c none
  | left {k x y c ts d} (hx : Parses g k (.once x) c (some (ts, d))) :
      Parses g k (.once (.alt x y)) c (some (ts, d))
  | right {k x y c a} (hx : Parses g k (.once x) c none) (hy : Parses g k (.once y) c a) :
      Parses g k (.once (.alt x y)) c a
  | present {k x c ts d} (hx : Parses g k (.once x) c (some (ts, d))) :
      Parses g k (.once (.opt x)) c (some (ts, d))
  | absent {k x c} (hx : Parses g k (.once x) c none) :
      Parses g k (.once (.opt x)) c (some ([], c))
  | many {k x c ts mid us d} (hx : Parses g k (.once x) c (some (ts, mid)))
      (hmore : Parses g k (.further x) mid (some (us, d))) :
      Parses g k (.once (.many x)) c (some (ts ++ us, d))
  | never {k x c} (hx : Parses g k (.once x) c none) :
      Parses g k (.once (.many x)) c (some ([], c))
  | again {k x c ss mid ts mid' us d} (hgap : Between k c ss mid)
      (hx : Parses g k (.once x) mid (some (ts, mid')))
      (hmore : Parses g k (.further x) mid' (some (us, d))) :
      Parses g k (.further x) c (some (ss.map .comment ++ ts ++ us, d))
  | done {k x c ss mid} (hgap : Between k c ss mid) (hx : Parses g k (.once x) mid none) :
      Parses g k (.further x) c (some ([], c))
  | ahead {k x c ts d} (hx : Parses g k (.once x) c (some (ts, d))) :
      Parses g k (.once (.ahead x)) c (some ([], c))
  | noAhead {k x c} (hx : Parses g k (.once x) c none) : Parses g k (.once (.ahead x)) c none
  | notAhead {k x c} (hx : Parses g k (.once x) c none) :
      Parses g k (.once (.notAhead x)) c (some ([], c))
  | noNotAhead {k x c ts d} (hx : Parses g k (.once x) c (some (ts, d))) :
      Parses g k (.once (.notAhead x)) c none

variable {g : Rules ρ}

theorem Between.unique {k : Bool} {d' : Cursor} {ss' : List Span} (h : Between k c ss d)
    (h' : Between k c ss' d') : ss = ss' ∧ d = d' := by
  have hgap := between_iff (m := ⟨k, .none⟩).1 h
  have hgap' := between_iff (m := ⟨k, .none⟩).1 h'
  rw [hgap] at hgap'
  exact Prod.mk.inj hgap'

/-- The words before the first that stands here are the same whichever way they are found. -/
theorem first_unique {before before' behind behind' : List (List Char)} {w' rest rest' : List Char}
    (h : before ++ w :: behind = before' ++ w' :: behind') (hbefore : ∀ v ∈ before, ¬ v <+: cs)
    (hbefore' : ∀ v ∈ before', ¬ v <+: cs) (hw : cs = w ++ rest) (hw' : cs = w' ++ rest') :
    w = w' := by
  have hfind : ∀ {u v x r}, (∀ y ∈ u, ¬ y <+: cs) → cs = x ++ r →
      (u ++ x :: v).find? (·.isPrefixOf cs) = some x := by
    intro u v x r hu hx
    rw [List.find?_append, List.find?_eq_none.2 (by simpa using hu), Option.none_or,
      List.find?_cons_of_pos]
    simpa using ⟨r, hx.symm⟩
  have := hfind (v := behind) hbefore hw
  rw [h, hfind hbefore' hw'] at this
  exact (Option.some.inj this).symm

/-- An expression gives one answer at a place. -/
theorem Parses.unique {k : Bool} {t : Trial ρ} {a a' : Answer ρ} (h : Parses g k t c a)
    (h' : Parses g k t c a') : a = a' := by
  -- A rule for a match and one for no match exclude each other by what they ask of the text; where
  -- they ask it of the parts, the parts have one answer by induction.
  induction h generalizing a' with
  | word h =>
    cases h' with
    | word h' => rw [List.append_cancel_left (h.symm.trans h')]
    | noWord h' => exact absurd ⟨_, h.symm⟩ h'
  | noWord h =>
    cases h' with
    | word h' => exact absurd ⟨_, h'.symm⟩ h
    | noWord => rfl
  | words hws hbefore h =>
    subst hws
    cases h' with
    | words hws' hbefore' h' =>
      obtain rfl := first_unique hws' hbefore hbefore' h h'
      rw [List.append_cancel_left (h.symm.trans h')]
    | noWords h' => exact absurd ⟨_, h.symm⟩ (h' _ (by simp))
  | noWords h =>
    cases h' with
    | words hws' _ h' => exact absurd ⟨_, h'.symm⟩ (h _ (by simp [hws']))
    | noWords => rfl
  | one hc h =>
    cases h' with
    | one hc' => cases hc.symm.trans hc'; rfl
    | noOne h' => simp [h' _ (by rw [hc]; rfl)] at h
  | noOne h =>
    cases h' with
    | one hc h' => simp [h _ (by rw [hc]; rfl)] at h'
    | noOne => rfl
  | startOfText h =>
    cases h' with
    | startOfText => rfl
    | noStart h' => exact absurd h h'
  | noStart h =>
    cases h' with
    | startOfText h' => exact absurd h' h
    | noStart => rfl
  | endOfText h =>
    cases h' with
    | endOfText => rfl
    | noEnd h' => exact absurd h h'
  | noEnd h =>
    cases h' with
    | endOfText h' => exact absurd h' h
    | noEnd => rfl
  | rule _ ih =>
    cases h' with
    | rule h' => cases ih h'; rfl
    | noRule h' => cases ih h'
  | noRule _ ih =>
    cases h' with
    | rule h' => cases ih h'
    | noRule => rfl
  | seq _ hgap _ ihx ihy =>
    cases h' with
    | seq hx' hgap' hy' =>
      cases ihx hx'
      obtain ⟨rfl, rfl⟩ := hgap.unique hgap'
      cases ihy hy'
      rfl
    | noFirst hx' => cases ihx hx'
    | noSecond hx' hgap' hy' =>
      cases ihx hx'
      obtain ⟨rfl, rfl⟩ := hgap.unique hgap'
      cases ihy hy'
  | noFirst _ ihx =>
    cases h' with
    | seq hx' => cases ihx hx'
    | noFirst => rfl
    | noSecond => rfl
  | noSecond _ hgap _ ihx ihy =>
    cases h' with
    | seq hx' hgap' hy' =>
      cases ihx hx'
      obtain ⟨rfl, rfl⟩ := hgap.unique hgap'
      cases ihy hy'
    | noFirst => rfl
    | noSecond => rfl
  | left _ ihx =>
    cases h' with
    | left hx' => exact ihx hx'
    | right hx' => cases ihx hx'
  | right _ _ ihx ihy =>
    cases h' with
    | left hx' => cases ihx hx'
    | right _ hy' => exact ihy hy'
  | present _ ihx =>
    cases h' with
    | present hx' => exact ihx hx'
    | absent hx' => cases ihx hx'
  | absent _ ihx =>
    cases h' with
    | present hx' => cases ihx hx'
    | absent => rfl
  | many _ _ ihx ihmore =>
    cases h' with
    | many hx' hmore' =>
      cases ihx hx'
      cases ihmore hmore'
      rfl
    | never hx' => cases ihx hx'
  | never _ ihx =>
    cases h' with
    | many hx' => cases ihx hx'
    | never => rfl
  | again hgap _ _ ihx ihmore =>
    cases h' with
    | again hgap' hx' hmore' =>
      obtain ⟨rfl, rfl⟩ := hgap.unique hgap'
      cases ihx hx'
      cases ihmore hmore'
      rfl
    | done hgap' hx' =>
      obtain ⟨rfl, rfl⟩ := hgap.unique hgap'
      cases ihx hx'
  | done hgap _ ihx =>
    cases h' with
    | again hgap' hx' =>
      obtain ⟨rfl, rfl⟩ := hgap.unique hgap'
      cases ihx hx'
    | done => rfl
  | ahead _ ihx =>
    cases h' with
    | ahead => rfl
    | noAhead hx' => cases ihx hx'
  | noAhead _ ihx =>
    cases h' with
    | ahead hx' => cases ihx hx'
    | noAhead => rfl
  | notAhead _ ihx =>
    cases h' with
    | notAhead => rfl
    | noNotAhead hx' => cases ihx hx'
  | noNotAhead _ ihx =>
    cases h' with
    | notAhead hx' => cases ihx hx'
    | noNotAhead => rfl

/-! ## Runs -/

def Outcome.answer : Outcome ρ → Answer ρ
  | .matched ts d _ => some (ts, d)
  | .failed _ => none

theorem not_prefix_of_afterWord? (h : afterWord? w cs = none) : ¬ w <+: cs := by
  rintro ⟨rest, rfl⟩
  rw [afterWord?_append] at h
  cases h

theorem Rules.token_inner (g : Rules ρ) (r : ρ) (m : Mode) :
    (g.inner r m).token = (m.token || g.kind r == .token) := by
  unfold Rules.inner
  cases hkind : g.kind r with
  | tree => simp
  | token => simp

theorem parses_of_takeWord {a : Attempts ρ} :
    Parses g m.token (.once (.word w)) c (takeWord m w c a).answer := by
  unfold takeWord
  split
  · rename_i rest hrest
    exact .word (eq_append_of_afterWord? hrest)
  · rename_i hnone
    exact .noWord (not_prefix_of_afterWord? hnone)

theorem parses_words {ws : List (List Char)} {a : Attempts ρ} (h : firstWord? ws c.rest = some w) :
    Parses g m.token (.once (.words ws)) c (takeWord m w c a).answer := by
  obtain ⟨hw, before, behind, hws, hbefore⟩ := List.find?_eq_some_iff_append.1 h
  obtain ⟨rest, hrest⟩ := List.isPrefixOf_iff_prefix.1 hw
  unfold takeWord
  rw [← hrest, afterWord?_append]
  refine .words hws (fun v hv hpre => ?_) hrest.symm
  have hno := hbefore v hv
  rw [List.isPrefixOf_iff_prefix.2 hpre] at hno
  cases hno

def RunParses (g : Rules ρ) (n : Nat) : Prop :=
  ∀ {e m c a out}, run g n e m c a = some out → Parses g m.token (.once e) c out.answer

def MoreParses (g : Rules ρ) (n : Nat) : Prop :=
  ∀ {x m c a ts d a'}, more g n x m c a = some (ts, d, a') →
    Parses g m.token (.further x) c (some (ts, d))

theorem runParses_succ {n : Nat} (ihRun : RunParses g n) (ihMore : MoreParses g n) :
    RunParses g (n + 1) := by
  intro e m c a out h
  cases e with
  | word w =>
    cases h
    exact parses_of_takeWord
  | words ws =>
    simp only [run] at h
    split at h
    · rename_i w hw
      cases h
      exact parses_words hw
    · rename_i hnone
      cases h
      refine .noWords fun w hw hpre => ?_
      have := List.find?_eq_none.1 hnone w hw
      exact this (List.isPrefixOf_iff_prefix.2 hpre)
  | one p =>
    simp only [run] at h
    split at h
    · rename_i hrest
      cases h
      exact .noOne (by simp [hrest])
    · rename_i ch rest hrest
      split at h
      · rename_i hp
        cases h
        exact .one hrest hp
      · rename_i hp
        cases h
        exact .noOne (by simpa [hrest] using hp)
  | startOfText =>
    simp only [run, Option.some.injEq] at h
    subst h
    by_cases hc : c.offset = 0
    · rw [if_pos hc]
      exact .startOfText hc
    · rw [if_neg hc]
      exact .noStart hc
  | endOfText =>
    simp only [run, Option.some.injEq] at h
    subst h
    by_cases hc : c.rest = []
    · rw [if_pos (by simp [hc])]
      exact .endOfText hc
    · rw [if_neg (by simp [hc])]
      exact .noEnd hc
  | rule r =>
    simp only [run] at h
    split at h
    · cases h
    · rename_i a' hbody
      cases h
      refine .noRule ?_
      rw [← g.token_inner]
      exact ihRun hbody
    · rename_i parts d a' hbody
      cases h
      refine .rule ?_
      rw [← g.token_inner]
      exact ihRun hbody
  | seq x y =>
    simp only [run] at h
    split at h
    · cases h
    · rename_i hx
      cases h
      exact .noFirst (ihRun hx)
    · rename_i before mid _ hx
      split at h
      · cases h
      · rename_i hy
        cases h
        exact .noSecond (ihRun hx) (between_gap m mid) (ihRun hy)
      · rename_i hy
        cases h
        exact .seq (ihRun hx) (between_gap m mid) (ihRun hy)
  | alt x y =>
    simp only [run] at h
    split at h
    · cases h
    · rename_i hx
      exact .right (ihRun hx) (ihRun h)
    · rename_i hx
      cases h
      exact .left (ihRun hx)
  | opt x =>
    simp only [run] at h
    split at h
    · cases h
    · rename_i hx
      cases h
      exact .absent (ihRun hx)
    · rename_i hx
      cases h
      exact .present (ihRun hx)
  | many x =>
    simp only [run] at h
    split at h
    · cases h
    · rename_i hx
      cases h
      exact .never (ihRun hx)
    · rename_i hx
      split at h
      · cases h
      · rename_i hmore
        cases h
        exact .many (ihRun hx) (ihMore hmore)
  | ahead x =>
    simp only [run] at h
    split at h
    · cases h
    · rename_i hx
      cases h
      exact .noAhead (ihRun hx)
    · rename_i hx
      cases h
      exact .ahead (ihRun hx)
  | notAhead x =>
    simp only [run] at h
    split at h
    · cases h
    · rename_i hx
      cases h
      exact .notAhead (ihRun hx)
    · rename_i hx
      cases h
      exact .noNotAhead (ihRun hx)

theorem moreParses_succ {n : Nat} (ihRun : RunParses g n) (ihMore : MoreParses g n) :
    MoreParses g (n + 1) := by
  intro x m c a ts d a' h
  simp only [more] at h
  split at h
  · cases h
  · rename_i hx
    cases h
    exact .done (between_gap m c) (ihRun hx)
  · rename_i hx
    split at h
    · cases h
    · rename_i hmore
      cases h
      exact .again (between_gap m c) (ihRun hx) (ihMore hmore)

theorem runParses_and_moreParses (g : Rules ρ) (n : Nat) : RunParses g n ∧ MoreParses g n := by
  induction n with
  | zero =>
    refine ⟨fun h => ?_, fun h => ?_⟩
    · cases h
    · cases h
  | succ n ih => exact ⟨runParses_succ ih.1 ih.2, moreParses_succ ih.1 ih.2⟩

/-- The answer of a run that finished is what the expression means. -/
theorem parses_of_run {n : Nat} {e : Peg ρ} {a : Attempts ρ} {out : Outcome ρ}
    (h : run g n e m c a = some out) : Parses g m.token (.once e) c out.answer :=
  (runParses_and_moreParses g n).1 h

end Transcribe.Grammar
