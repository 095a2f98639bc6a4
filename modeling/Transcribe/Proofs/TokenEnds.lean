/-
  Transcribe.Proofs.TokenEnds — where tokens begin and end.

  A token begins and ends with a character that is no space, so a walk over space from its first
  byte and a walk back from its last stay where they are (`Solid`). Between two tokens a walk back
  from anywhere comes to the same place, provided the table holds the comments of the gap and no
  other that ends there (`Split`, `Spaced`). That tokens are without space at their ends and not
  empty is checked on the expressions of the grammar (`dense`, `eats`).
  - `solid_of_text`: walking back stops at the end of a token.
  - `GapTo.spaced`: from the end of a gap, walking back leads to where it leads from the start.
  - `Takes.dense`, `Takes.lt_of_eats`: checked expressions match text without space, and some.
-/

import Transcribe.Proofs.Gap
import Transcribe.Proofs.Walk

namespace Transcribe.Text

def isSpace (c : Char) : Bool := isBlank c || isBreak c

theorem spaceLength_eq_zero {b : Bool} {c : Char} {cs : List Char} (hc : isSpace c = false)
    (hs : c = '/' → cs.head? ≠ some '/' ∧ cs.head? ≠ some '*') :
    spaceLength b .space (c :: cs) = 0 := by
  obtain ⟨hblank, hbreak⟩ := Bool.or_eq_false_iff.1 hc
  rw [spaceLength, if_neg (by simp [hbreak]), if_neg (by simp [hblank])]
  · rintro cs' rfl rfl
    exact (hs rfl).1 rfl
  · rintro cs' rfl rfl
    exact (hs rfl).2 rfl

theorem charBefore?_append (a : List Char) (c : Char) (r : List Char) :
    charBefore? (byteLength a + c.utf8Size) (a ++ c :: r) = some c := by
  induction a with
  | nil => simp [charBefore?]
  | cons d a ih =>
    have hc := c.utf8Size_pos
    rw [List.cons_append, charBefore?, byteLength_cons, if_neg (by omega), if_neg (by omega), ← ih]
    congr 1
    omega

namespace Source

variable {s : Source}

/-! ## Walking back, step by step -/

theorem stepsBack_eq {n m o : Nat} (hn : o ≤ n) (hm : o ≤ m) : s.stepsBack n o = s.stepsBack m o := by
  induction n generalizing m o with
  | zero =>
    obtain rfl : o = 0 := by omega
    cases m <;> simp [stepsBack]
  | succ n ih =>
    cases m with
    | zero =>
      obtain rfl : o = 0 := by omega
      simp [stepsBack]
    | succ m =>
      rw [stepsBack, stepsBack]
      split
      · exact ih (by omega) (by omega)
      · rfl

theorem skipSpaceBack_of_lt {o : Nat} (ho : o ≤ s.size) (h : s.stepBack o < o) :
    s.skipSpaceBack o = s.skipSpaceBack (s.stepBack o) := by
  obtain ⟨n, rfl⟩ : ∃ n, o = n + 1 := ⟨o - 1, by omega⟩
  rw [skipSpaceBack, skipSpaceBack, Nat.min_eq_left ho, Nat.min_eq_left (by omega), stepsBack,
    if_pos h]
  exact stepsBack_eq (by omega) (Nat.le_refl _)

theorem skipSpaceBack_of_stay {o : Nat} (ho : o ≤ s.size) (h : s.stepBack o = o) :
    s.skipSpaceBack o = o := by
  rw [skipSpaceBack, Nat.min_eq_left ho]
  cases o with
  | zero => rfl
  | succ n => rw [stepsBack, if_neg (by omega)]

theorem stepBack_of_char {o : Nat} {c : Char} (hnone : ∀ x ∈ s.comments, x.stop ≠ o)
    (hc : charBefore? o s.chars = some c) :
    s.stepBack o = if isSpace c then o - 1 else o := by
  have hbefore : s.commentBefore? o = none := by
    rw [commentBefore?, Option.map_eq_none_iff, List.find?_eq_none]
    simpa using hnone
  simp only [stepBack, hbefore, hc]
  rfl

theorem stepBack_of_comment {c : Span} (hc : c ∈ s.comments)
    (hone : ∀ x ∈ s.comments, x.stop = c.stop → x = c) : s.stepBack c.stop = c.start := by
  have hbefore : s.commentBefore? c.stop = some c.start := by
    rw [commentBefore?]
    cases hfind : s.comments.find? fun x => x.stop == c.stop with
    | none => exact absurd (List.find?_eq_none.1 hfind c hc) (by simp)
    | some x =>
      rw [hone x (List.mem_of_find?_eq_some hfind) (by simpa using List.find?_some hfind)]
      rfl
  simp only [stepBack, hbefore]

/-! ## Solid spans -/

structure Solid (s : Source) (span : Span) : Prop where
  lt : span.start < span.stop
  start : s.skipSpace false span.start = span.start
  stop : s.skipSpaceBack span.stop = span.stop
  left : s.Boundary span.start
  right : s.Boundary span.stop

/-- The span from the start of one to the end of another. -/
theorem Solid.hull {a b : Span} (ha : s.Solid a) (hb : s.Solid b) (h : a.start < b.stop) :
    s.Solid ⟨a.start, b.stop⟩ :=
  ⟨h, ha.start, hb.stop, ha.left, hb.right⟩

/-- Text is solid if it begins and ends with characters that are no space, and no comment of the
table ends where it ends. -/
theorem solid_of_text {o : Nat} {w r : List Char} (h : s.rest? o = some (w ++ r))
    (hhead : spaceLength false .space (w ++ r) = 0) {v : List Char} {c : Char} (hw : w = v ++ [c])
    (hc : isSpace c = false) (hnone : ∀ x ∈ s.comments, x.stop ≠ o + byteLength w) :
    s.Solid ⟨o, o + byteLength w⟩ := by
  have hpos : 0 < byteLength w := by
    have := c.utf8Size_pos
    rw [hw, byteLength_append]
    simp only [byteLength_cons, byteLength_nil]
    omega
  have hright : s.Boundary (o + byteLength w) := ⟨r, rest?_add h⟩
  refine ⟨by simpa using hpos, ?_, ?_, ⟨_, h⟩, hright⟩
  · simp only [skipSpace, forward, h, hhead, Nat.add_zero]
  · obtain ⟨a, ha, rfl⟩ := rest?_eq_some_iff.1 h
    refine skipSpaceBack_of_stay (le_size hright) ?_
    have hchar : charBefore? (byteLength a + byteLength w) s.chars = some c := by
      have := charBefore?_append (a ++ v) c r
      simpa [ha, hw, Nat.add_assoc] using this
    rw [stepBack_of_char hnone hchar, if_neg (by simp [hc])]

/-- Between `x` and `y` stand only space and comments, and the way back from `y` is the way back
from `x`. -/
structure Spaced (s : Source) (x y : Nat) : Prop where
  inGap : s.InGap x y
  back : s.skipSpaceBack y = s.skipSpaceBack x

namespace Spaced

theorem refl {x : Nat} (h : s.Boundary x) : s.Spaced x x := ⟨.refl h, rfl⟩

theorem trans {x y z : Nat} (h : s.Spaced x y) (h' : s.Spaced y z) : s.Spaced x z :=
  ⟨h.inGap.trans h'.inGap, h'.back.trans h.back⟩

/-- Over one character of space. -/
theorem char {o : Nat} {c : Char} {cs : List Char} (h : s.rest? o = some (c :: cs))
    (hc : isSpace c = true) (hnone : ∀ x ∈ s.comments, x.stop ≠ o + 1) : s.Spaced o (o + 1) := by
  have hsize := utf8Size_of_space hc
  have hgap : s.InGap o (o + 1) :=
    inGap_add h (.single (.space cs hc)) (by rw [byteLength_cons, hsize])
  refine ⟨hgap, ?_⟩
  obtain ⟨a, ha, rfl⟩ := rest?_eq_some_iff.1 h
  have hchar : charBefore? (byteLength a + 1) s.chars = some c := by
    have := charBefore?_append a c cs
    rwa [hsize, ← ha] at this
  have hstep : s.stepBack (byteLength a + 1) = byteLength a := by
    rw [stepBack_of_char hnone hchar, if_pos hc, Nat.add_sub_cancel]
  rw [skipSpaceBack_of_lt (le_size hgap.boundary) (by omega), hstep]

/-- Over one comment of the table. -/
theorem comment {c : Span} (hc : c ∈ s.comments)
    (hone : ∀ x ∈ s.comments, x.stop = c.stop → x = c) : s.Spaced c.start c.stop := by
  obtain ⟨cs, cs', hstart, hstop, hskip⟩ := commented_of_mem_comments hc
  have hlt : c.start < c.stop := start_lt_stop_of_mem_comments (s.comments_eq ▸ hc)
  refine ⟨⟨cs, cs', hstart, hstop, .single hskip⟩, ?_⟩
  have hstep := stepBack_of_comment hc hone
  rw [skipSpaceBack_of_lt (le_size ⟨cs', hstop⟩) (by omega), hstep]

end Spaced

end Source

end Transcribe.Text

namespace Transcribe.Grammar

open Text (Span Source byteLength isSpace)

variable {ρ : Type} {g : Rules ρ} {m : Mode} {c d : Cursor} {ts : List (Derivation ρ)} {s : Source}

/-! ## Gaps -/

def Cursor.On (c : Cursor) (s : Source) : Prop := s.rest? c.offset = some c.rest

theorem Cursor.Reaches.on {w : List Char} (h : c.Reaches w d) (hc : c.On s) : d.On s := by
  rw [Cursor.On, h.offset_eq]
  exact Source.rest?_add (by rw [← h.rest_eq]; exact hc)

theorem Cursor.On.boundary (hc : c.On s) : s.Boundary c.offset := ⟨c.rest, hc⟩

theorem isSpace_of_isGapChar {ch : Char} (h : isGapChar ch = true) : isSpace ch = true := by
  simp only [isGapChar, isSpace, Text.isBlank, Bool.or_eq_true, beq_iff_eq] at *
  rcases h with h | h
  · exact .inl (.inl h)
  · exact .inr h

/-- The comments of the table before `lo`, between `lo` and `hi`, and behind `hi`. -/
structure Split (s : Source) (lo : Nat) (before among behind : List Span) (hi : Nat) : Prop where
  eq : s.comments = before ++ among ++ behind
  stop_le : ∀ x ∈ before, x.stop ≤ lo
  le_start : ∀ x ∈ behind, hi ≤ x.start

namespace Split

variable {lo mid hi : Nat} {before among among' behind : List Span}

theorem lt (h : Split s lo before among behind hi) {x : Span}
    (hx : x ∈ before ++ among ++ behind) : x.start < x.stop :=
  Text.start_lt_stop_of_mem_comments (s.comments_eq ▸ h.eq ▸ hx)

/-- The comments of two stretches, seen from the first. -/
theorem left (h : Split s lo before (among ++ among') behind hi) (hin : InOrder mid among' hi) :
    Split s lo before among (among' ++ behind) mid := by
  refine ⟨by simp [h.eq], h.stop_le, fun x hx => ?_⟩
  rcases List.mem_append.1 hx with hx | hx
  · exact InOrder.pairwise.start_le hin hx
  · exact Nat.le_trans hin.le (h.le_start x hx)

theorem stop_le_of_inOrder {lo hi : Nat} {ss : List Span} (h : InOrder lo ss hi) {x : Span}
    (hx : x ∈ ss) : x.stop ≤ hi := by
  induction ss generalizing lo with
  | nil => cases hx
  | cons y ss ih =>
    rcases List.mem_cons.1 hx with rfl | hx
    · exact h.2.2.le
    · exact ih h.2.2 hx

/-- The comments of two stretches, seen from the second. -/
theorem right (h : Split s lo before (among ++ among') behind hi) (hin : InOrder lo among mid) :
    Split s mid (before ++ among) among' behind hi := by
  refine ⟨by simp [h.eq], fun x hx => ?_, h.le_start⟩
  rcases List.mem_append.1 hx with hx | hx
  · exact Nat.le_trans (h.stop_le x hx) hin.le
  · exact stop_le_of_inOrder hin hx

/-- No comment ends behind the first stretch and before the end of the second, if it has none. -/
theorem stop_ne (h : Split s lo before [] behind hi) (hlt : lo < hi) :
    ∀ x ∈ s.comments, x.stop ≠ hi := by
  intro x hx
  rw [h.eq] at hx
  have hne := h.lt hx
  rw [List.append_nil] at hx
  rcases List.mem_append.1 hx with hx | hx
  · have := h.stop_le x hx
    omega
  · have := h.le_start x hx
    omega

end Split

theorem GapTo.spaced {ss before behind : List Span} (h : GapTo c ss d) (hc : c.On s)
    (hsplit : Split s c.offset before ss behind d.offset) : s.Spaced c.offset d.offset := by
  induction h generalizing before with
  | done => exact .refl hc.boundary
  | @blank o ch cs ss d hch hrest ih =>
    have hreach : Cursor.Reaches ⟨o, ch :: cs⟩ [ch] ⟨o + 1, cs⟩ :=
      ⟨rfl, by simp [utf8Size_of_isGapChar hch]⟩
    have hpart : Split s o before ([] ++ ss) behind d.offset := hsplit
    have hin : InOrder o [] (o + 1) := Nat.le_succ o
    have hstep : s.Spaced o (o + 1) :=
      .char hc (isSpace_of_isGapChar hch)
        ((hpart.left hrest.inOrder).stop_ne (Nat.lt_succ_self o))
    exact hstep.trans (ih (hreach.on hc) (hpart.right hin))
  | @comment o w cs ss d hw hrest ih =>
    have hreach : Cursor.Reaches ⟨o, w ++ cs⟩ w ⟨o + byteLength w, cs⟩ := ⟨rfl, rfl⟩
    have hpart : Split s o before ([⟨o, o + byteLength w⟩] ++ ss) behind d.offset := hsplit
    have hin : InOrder o [⟨o, o + byteLength w⟩] (o + byteLength w) :=
      ⟨Nat.le_refl o, Nat.le_add_right _ _, Nat.le_refl _⟩
    have hmem : (⟨o, o + byteLength w⟩ : Span) ∈ s.comments := by
      rw [hsplit.eq]
      simp
    have hright := hpart.right hin
    -- The comments before end where this one begins, those behind begin where it ends.
    have hone : ∀ x ∈ s.comments, x.stop = o + byteLength w → x = ⟨o, o + byteLength w⟩ := by
      intro x hx hstop
      rw [hright.eq] at hx
      have hlt := hright.lt hx
      have hlen : o < o + byteLength w :=
        Text.start_lt_stop_of_mem_comments (s.comments_eq ▸ hmem)
      simp only [List.append_assoc, List.mem_append, List.mem_singleton] at hx
      rcases hx with hx | rfl | hx | hx
      · have : x.stop ≤ o := hsplit.stop_le x hx
        omega
      · rfl
      · have : o + byteLength w ≤ x.start := InOrder.pairwise.start_le hrest.inOrder hx
        omega
      · have : o + byteLength w ≤ x.start := Nat.le_trans hrest.inOrder.le (hsplit.le_start x hx)
        omega
    exact (Source.Spaced.comment hmem hone).trans (ih (hreach.on hc) hright)

theorem GapTo.on {ss : List Span} (h : GapTo c ss d) (hc : c.On s) : d.On s := by
  obtain ⟨w, hw⟩ := h.reaches
  exact hw.on hc

/-! ## Expressions without space -/

namespace Peg

def dense : Peg ρ → Bool
  | .word w => w.all (!isSpace ·)
  | .words ws => ws.all (·.all (!isSpace ·))
  | .one p => !p ' ' && !p '\t' && !p '\x0c' && !p '\n' && !p '\r'
  | .startOfText | .endOfText | .ahead _ | .notAhead _ => true
  | .rule _ => false
  | .seq a b | .alt a b => a.dense && b.dense
  | .opt a | .many a => a.dense

/-- Whether the expression never matches the empty text, if the rules of `f` never do. -/
def eats (f : ρ → Bool) : Peg ρ → Bool
  | .word w => !w.isEmpty
  | .words ws => ws.all (!·.isEmpty)
  | .one _ => true
  | .rule r => f r
  | .seq a b => a.eats f || b.eats f
  | .alt a b => a.eats f && b.eats f
  | _ => false

end Peg

theorem isSpace_of_class {p : Char → Bool}
    (hp : (!p ' ' && !p '\t' && !p '\x0c' && !p '\n' && !p '\r') = true) {ch : Char}
    (h : p ch = true) : isSpace ch = false := by
  simp only [Bool.and_eq_true, Bool.not_eq_true'] at hp
  have hne := ne_of_class h
  simp [isSpace, Text.isBlank, Text.isBreak, hne _ hp.1.1.1.1, hne _ hp.1.1.1.2, hne _ hp.1.1.2,
    hne _ hp.1.2, hne _ hp.2]

theorem Peg.each_dense (e : Peg ρ) : e.each (·.all (!isSpace ·))
    (fun p => !p ' ' && !p '\t' && !p '\x0c' && !p '\n' && !p '\r') = e.dense := by
  induction e <;> simp_all [each, dense]

/-- What a dense expression matches as a token holds no space. -/
theorem Takes.dense {k : Trial ρ} (hm : m.token = true) (h : Takes g m k c ts d)
    (hk : k.peg.dense = true) : ∃ w, c.Reaches w d ∧ ∀ ch ∈ w, isSpace ch = false :=
  h.each (P := fun w => ∀ ch ∈ w, isSpace ch = false) (by simp)
    (fun _ _ hv hw => List.forall_mem_append.2 ⟨hv, hw⟩)
    (fun w hw ch hch => by simpa using List.all_eq_true.1 hw ch hch)
    (fun _ _ hp h => by simpa using isSpace_of_class hp h) hm ((Peg.each_dense _).trans hk)

theorem byteLength_pos {w : List Char} (h : w.isEmpty = false) : 0 < byteLength w := by
  cases w with
  | nil => cases h
  | cons ch w =>
    have := ch.utf8Size_pos
    rw [Text.byteLength_cons]
    omega

theorem Mode.le_gap (m : Mode) (c : Cursor) : c.offset ≤ (m.gap c).2.offset := (m.gap_inOrder c).le

/-- An expression that eats moves the cursor on. -/
theorem Takes.lt_of_eats {f : ρ → Bool} (hf : ∀ r, f r = true → (g.body r).eats f = true)
    {e : Peg ρ} (he : e.eats f = true) (h : Takes g m (.once e) c ts d) : c.offset < d.offset := by
  generalize hk : Trial.once e = k at h
  induction h generalizing e with
  | @word _ w c =>
    cases hk
    have := byteLength_pos (Bool.not_eq_true' _ ▸ he)
    show c.offset < c.offset + byteLength w
    omega
  | @words _ w _ c _ hw =>
    cases hk
    have := byteLength_pos (Bool.not_eq_true' _ ▸ List.all_eq_true.1 he _ hw)
    show c.offset < c.offset + byteLength w
    omega
  | @one _ _ o ch =>
    have := ch.utf8Size_pos
    show o < o + ch.utf8Size
    omega
  | @rule _ r _ _ _ _ ih =>
    cases hk
    exact ih (hf r he) rfl
  | @seq m _ _ _ _ mid _ _ hx hy ihx ihy =>
    cases hk
    have hgap := m.le_gap mid
    have hle := hx.inOrder.le
    have hle' := hy.inOrder.le
    rcases Bool.or_eq_true_iff.1 he with he | he
    · have := ihx he rfl
      omega
    · have := ihy he rfl
      omega
  | left _ ih =>
    cases hk
    exact ih (Bool.and_eq_true_iff.1 he).1 rfl
  | right _ _ ih =>
    cases hk
    exact ih (Bool.and_eq_true_iff.1 he).2 rfl
  | startOfText | endOfText | absent | present | never | many | ahead | notAhead | done | again =>
    cases hk <;> cases he

end Transcribe.Grammar
