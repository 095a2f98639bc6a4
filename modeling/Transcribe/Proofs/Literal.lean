/-
  Transcribe.Proofs.Literal — how the table of comments passes over literals.

  A literal is closed if the pass, having entered it at its quote, is back in code exactly at
  its end. String literals of the grammar always are. A character literal may hold a line break
  or a backslash before its last quote, and then it is not: the pass is still astray behind it
  and misses a comment that begins there.

  Inside a character literal of the grammar stands one of a few shapes (`CharShape`). For each the
  pass is followed to the last apostrophe: before it the pass is `Astray` if it will not be in code
  behind it, and `Lost` is what it then is in, a comment or a literal that goes on.
  - `commentsFrom_closed`: a closed literal is passed over.
  - `closed_of_comment_behind`: behind any other character literal no comment is found.
  - `stringLiteral_inStep`: every string literal of the grammar is passed over.
-/

import Transcribe.Proofs.Match
import Transcribe.Java.Rule

namespace Transcribe.Text

variable {q : Char} {o : Nat} {cs : List Char} {s : Span}

/-- Whether the pass, inside a literal before `cs`, leaves it exactly at the end of `cs`. -/
def closes (quote : Char) : List Char → Bool
  | '\\' :: _ :: cs => closes quote cs
  | c :: cs => if c == quote || isBreak c then cs.isEmpty else closes quote cs
  | [] => false

def closed : List Char → Bool
  | quote :: cs => isQuote quote && closes quote cs
  | [] => false

theorem ne_backslash_of_isQuote (h : isQuote q = true) : q ≠ '\\' := by
  rintro rfl
  cases h

theorem commentsFrom_literal_cons {c : Char} (h : c = '\\' → cs = []) :
    commentsFrom (.literal q) o (c :: cs)
      = commentsFrom (if c == q || isBreak c then .code else .literal q) (o + c.utf8Size) cs := by
  rw [commentsFrom]
  rintro d ds rfl rfl
  cases h rfl

theorem commentsFrom_closes (hq : isQuote q = true) (h : closes q cs = true) (o : Nat)
    (rest : List Char) :
    commentsFrom (.literal q) o (cs ++ rest) = commentsFrom .code (o + byteLength cs) rest := by
  fun_induction closes q cs generalizing o with
  | case1 c cs ih =>
    have hsize : '\\'.utf8Size = 1 := rfl
    simp only [List.cons_append, commentsFrom, ih h, byteLength_cons, hsize, Nat.add_assoc]
  | case2 c cs _ hc =>
    obtain rfl := List.isEmpty_iff.1 h
    have hne : c ≠ '\\' := by
      rintro rfl
      have : ('\\' == q) = false := beq_false_of_ne (ne_backslash_of_isQuote hq).symm
      simp [this, isBreak] at hc
    rw [List.singleton_append, commentsFrom_literal_cons (fun h => absurd h hne), if_pos hc]
    rfl
  | case3 c cs hesc hc ih =>
    have hlast : c = '\\' → cs ++ rest = [] := by
      rintro rfl
      cases cs with
      | nil => cases h
      | cons d ds => exact absurd rfl (hesc d ds rfl)
    rw [List.cons_append, commentsFrom_literal_cons hlast, if_neg hc, ih h, byteLength_cons,
      Nat.add_assoc]
  | case4 => cases h

/-- The table passes over a closed literal. -/
theorem commentsFrom_closed {w : List Char} (h : closed w = true) (o : Nat) (rest : List Char) :
    commentsFrom .code o (w ++ rest) = commentsFrom .code (o + byteLength w) rest := by
  cases w with
  | nil => cases h
  | cons q w =>
    obtain ⟨hq, hw⟩ := Bool.and_eq_true_iff.1 h
    have hstart : commentsFrom .code o (q :: (w ++ rest))
        = commentsFrom (.literal q) (o + q.utf8Size) (w ++ rest) := by
      rw [commentsFrom, if_pos hq]
      all_goals
        rintro - rfl
        cases hq
    rw [List.cons_append, hstart, commentsFrom_closes hq hw, byteLength_cons, Nat.add_assoc]

/-! ## Literals that are not closed -/

def Region.start? : Region → Option Nat
  | .line start | .block start => some start
  | _ => none

/-- A comment found from `o` on begins there or behind, unless the pass was in it already. -/
theorem le_start_of_mem_commentsFrom {r : Region} (hs : s ∈ commentsFrom r o cs) :
    r.start? = some s.start ∨ o ≤ s.start := by
  fun_induction commentsFrom r o cs with
  | case1 o cs ih | case2 o cs ih =>
    rcases ih hs with h | h
    · exact .inr (Nat.le_of_eq (Option.some.inj h))
    · exact .inr (by omega)
  | case3 o c cs _ _ ih =>
    have hcode : Region.start? (if isQuote c then .literal c else .code) = none := by
      split <;> rfl
    rw [hcode] at ih
    rcases ih hs with h | h
    · cases h
    · exact .inr (by omega)
  | case4 start o c cs _ ih =>
    rcases List.mem_cons.1 hs with rfl | hs
    · exact .inl rfl
    · rcases ih hs with h | h
      · cases h
      · exact .inr (by omega)
  | case5 start o c cs _ ih | case7 start o c cs _ ih =>
    rcases ih hs with h | h
    · exact .inl h
    · exact .inr (by omega)
  | case6 start o cs ih =>
    rcases List.mem_cons.1 hs with rfl | hs
    · exact .inl rfl
    · rcases ih hs with h | h
      · cases h
      · exact .inr (by omega)
  | case8 quote o c cs ih =>
    rcases ih hs with h | h
    · cases h
    · exact .inr (by omega)
  | case9 quote o c cs _ ih =>
    have hcode :
        Region.start? (if c == quote || isBreak c then .code else .literal quote) = none := by
      split <;> rfl
    rw [hcode] at ih
    rcases ih hs with h | h
    · cases h
    · exact .inr (by omega)
  | case10 start o | case11 start o =>
    obtain rfl := List.mem_singleton.1 hs
    exact .inl rfl
  | case12 | case13 => cases hs

theorem exists_slash_of_mem_commentsFrom (hs : s ∈ commentsFrom .code o cs) (hstart : s.start = o) :
    ∃ rest, cs = '/' :: rest := by
  cases cs with
  | nil => cases hs
  | cons c cs =>
    by_cases hc : c = '/'
    · exact ⟨cs, by rw [hc]⟩
    · have hnext : commentsFrom .code o (c :: cs)
          = commentsFrom (if isQuote c then .literal c else .code) (o + c.utf8Size) cs := by
        rw [commentsFrom]
        all_goals exact fun _ h => absurd h hc
      have hnone : Region.start? (if isQuote c then .literal c else .code) = none := by
        split <;> rfl
      have hpos := c.utf8Size_pos
      rw [hnext] at hs
      rcases le_start_of_mem_commentsFrom hs with h | h
      · rw [hnone] at h
        cases h
      · omega

/-- The pass is in `r` before `b` and an apostrophe, and will not be in code behind them at `p`. -/
def Region.Astray (p : Nat) (b : List Char) : Region → Prop
  | .code => True
  | .line start | .block start => start < p
  | .literal q => isQuote q = true ∧ closes q (b ++ ['\x27']) = false

theorem closes_cons {c : Char} (h : c = '\\' → cs = []) :
    closes q (c :: cs) = if c == q || isBreak c then cs.isEmpty else closes q cs := by
  rw [closes]
  rintro d ds rfl rfl
  cases h rfl

/-- A literal closes at its quote or at a line break only. -/
theorem closes_concat_ne {c : Char} (hq : c ≠ q) (hc : isBreak c = false) (b : List Char) :
    closes q (b ++ [c]) = false := by
  have hstop : (c == q || isBreak c) = false := by simp [hq, hc]
  fun_induction closes q b with
  | case1 d b ih => exact ih
  | case2 d b hesc hd | case3 d b hesc hd ih =>
    by_cases hlast : d = '\\'
    · subst hlast
      cases b with
      | nil => rfl
      | cons e b => exact absurd rfl (hesc e b rfl)
    · rw [List.cons_append, closes_cons (fun h => absurd h hlast)]
      simp_all
  | case4 => simp [closes, hstop]

def Region.Lost (p : Nat) : Region → Prop
  | .code => False
  | .line start | .block start => start < p
  | .literal q => isQuote q = true

/-- A comment that begins where the pass is lost is not found. -/
theorem start_ne_of_lost {r : Region} {p : Nat} {rest : List Char} (hr : r.Lost p)
    (hs : s ∈ commentsFrom r p ('/' :: rest)) : s.start ≠ p := by
  have hskip : commentsFrom r p ('/' :: rest) = commentsFrom r (p + 1) rest := by
    cases r with
    | code => cases hr
    | line start => rfl
    | block start => rfl
    | literal q =>
      have hq : ('/' == q || isBreak '/') = false := by
        have hne : '/' ≠ q := by
          rintro rfl
          cases hr
        simp [hne, isBreak]
      rw [commentsFrom_literal_cons (fun h => by cases h), hq]
      rfl
  rw [hskip] at hs
  rcases le_start_of_mem_commentsFrom hs with h | h
  · cases r with
    | code => cases hr
    | literal q => cases h
    | line start | block start =>
      cases h
      exact Nat.ne_of_lt hr
  · omega

/-- A comment that begins behind a literal the pass has not left is not found. -/
theorem start_ne_of_astray {r : Region} {p : Nat} {b rest : List Char}
    (hcs : cs = b ++ '\x27' :: '/' :: rest) (hb : '\x27' ∉ b) (hp : p = o + byteLength b + 1)
    (hr : r.Astray p b) (hs : s ∈ commentsFrom r o cs) : s.start ≠ p := by
  -- In every case either `b` is used up, and the pass is lost behind the apostrophe, or the
  -- pass goes on through `b`.
  fun_induction commentsFrom r o cs generalizing b with
  | case1 o cs ih | case2 o cs ih =>
    rcases b with _ | ⟨c, _ | ⟨d, b⟩⟩
    · simp at hcs
    · simp at hcs
    · simp only [List.cons_append, List.cons.injEq] at hcs
      obtain ⟨rfl, rfl, rfl⟩ := hcs
      have hlen : p = o + 2 + byteLength b + 1 := by
        rw [hp, byteLength_cons, byteLength_cons, ← Nat.add_assoc, ← Nat.add_assoc]; rfl
      exact ih rfl (fun h => hb (by simp [h])) hlen (by simp only [Region.Astray]; omega) hs
  | case3 o c cs h₁ h₂ ih =>
    rcases b with _ | ⟨d, b⟩
    · simp only [List.nil_append, List.cons.injEq] at hcs
      obtain ⟨rfl, rfl⟩ := hcs
      rw [hp]
      exact start_ne_of_lost (r := .literal '\x27') rfl hs
    · simp only [List.cons_append, List.cons.injEq] at hcs
      obtain ⟨rfl, rfl⟩ := hcs
      rw [byteLength_cons, ← Nat.add_assoc] at hp
      refine ih rfl (fun h => hb (List.mem_cons_of_mem _ h)) hp ?_ hs
      split
      · rename_i hq
        exact ⟨hq, closes_concat_ne (fun h => hb (List.mem_cons.2 (.inl h))) rfl b⟩
      · trivial
  | case4 start o c cs hc ih =>
    rcases b with _ | ⟨d, b⟩
    · simp only [List.nil_append, List.cons.injEq] at hcs
      rw [hcs.1] at hc
      cases hc
    · simp only [List.cons_append, List.cons.injEq] at hcs
      obtain ⟨rfl, rfl⟩ := hcs
      rw [byteLength_cons, ← Nat.add_assoc] at hp
      rcases List.mem_cons.1 hs with rfl | hs
      · exact Nat.ne_of_lt hr
      · exact ih rfl (fun h => hb (List.mem_cons_of_mem _ h)) hp trivial hs
  | case5 start o c cs hc ih | case7 start o c cs hc ih =>
    rcases b with _ | ⟨d, b⟩
    · simp only [List.nil_append, List.cons.injEq] at hcs
      obtain ⟨rfl, rfl⟩ := hcs
      rw [hp] at hr ⊢
      refine start_ne_of_lost ?_ hs
      exact hr
    · simp only [List.cons_append, List.cons.injEq] at hcs
      obtain ⟨rfl, rfl⟩ := hcs
      rw [byteLength_cons, ← Nat.add_assoc] at hp
      exact ih rfl (fun h => hb (List.mem_cons_of_mem _ h)) hp hr hs
  | case6 start o cs ih =>
    rcases b with _ | ⟨c, _ | ⟨d, b⟩⟩
    · simp at hcs
    · simp at hcs
    · simp only [List.cons_append, List.cons.injEq] at hcs
      obtain ⟨rfl, rfl, rfl⟩ := hcs
      rw [byteLength_cons, byteLength_cons, ← Nat.add_assoc, ← Nat.add_assoc] at hp
      rcases List.mem_cons.1 hs with rfl | hs
      · exact Nat.ne_of_lt hr
      · exact ih rfl (fun h => hb (by simp [h])) hp trivial hs
  | case8 quote o c cs ih =>
    rcases b with _ | ⟨d, _ | ⟨e, b⟩⟩
    · simp at hcs
    · simp only [List.cons_append, List.nil_append, List.cons.injEq] at hcs
      obtain ⟨rfl, rfl, rfl⟩ := hcs
      rw [hp]
      exact start_ne_of_lost (r := .literal quote) hr.1 hs
    · simp only [List.cons_append, List.cons.injEq] at hcs
      obtain ⟨rfl, rfl, rfl⟩ := hcs
      rw [byteLength_cons, byteLength_cons, ← Nat.add_assoc, ← Nat.add_assoc] at hp
      exact ih rfl (fun h => hb (by simp [h])) hp hr hs
  | case9 quote o c cs hesc ih =>
    rcases b with _ | ⟨d, b⟩
    · simp only [List.nil_append, List.cons.injEq] at hcs
      obtain ⟨rfl, rfl⟩ := hcs
      have hq : ('\x27' == quote || isBreak '\x27') = false := by
        simpa [closes] using hr.2
      rw [if_neg (by simp [hq])] at hs
      rw [hp]
      exact start_ne_of_lost (r := .literal quote) hr.1 hs
    · simp only [List.cons_append, List.cons.injEq] at hcs
      obtain ⟨rfl, rfl⟩ := hcs
      have hne : c = '\\' → b ++ ['\x27'] = [] := fun h => by
        cases b with
        | nil => exact absurd rfl (hesc _ _ h)
        | cons e b => exact absurd rfl (hesc _ _ h)
      have hopen := hr.2
      rw [List.cons_append, closes_cons hne] at hopen
      rw [byteLength_cons, ← Nat.add_assoc] at hp
      refine ih rfl (fun h => hb (List.mem_cons_of_mem _ h)) hp ?_ hs
      split
      · trivial
      · rename_i hc
        rw [if_neg hc] at hopen
        exact ⟨hr.1, hopen⟩
  | case10 start o | case11 start o | case12 | case13 => simp at hcs

/-- The shapes a character literal of the grammar has: `b` is what may stand in it behind an
escaped character, or alone. -/
def CharShape (w : List Char) : Prop :=
  ∃ b, '\x27' ∉ b ∧ (w = '\x27' :: (b ++ ['\x27']) ∨
    ∃ c, w = '\x27' :: '\\' :: c :: (b ++ ['\x27']))

/-- Only a closed literal lets the pass find a comment right behind it. -/
theorem closed_of_comment_behind {w rest : List Char} (hw : CharShape w)
    (hs : s ∈ commentsFrom .code o (w ++ '/' :: rest)) (hstart : s.start = o + byteLength w) :
    closed w = true := by
  cases hopen : closed w with
  | true => rfl
  | false =>
    have hone : '\x27'.utf8Size = 1 := rfl
    have hesc : '\\'.utf8Size = 1 := rfl
    obtain ⟨b, hb, rfl | ⟨d, rfl⟩⟩ := hw
    · have hin : s ∈ commentsFrom (.literal '\x27') (o + 1) (b ++ '\x27' :: '/' :: rest) := by
        simpa [commentsFrom, isQuote, hone] using hs
      refine absurd hstart (start_ne_of_astray (r := .literal '\x27') rfl hb ?_ ⟨rfl, hopen⟩ hin)
      simp only [byteLength_cons, byteLength_append, byteLength_nil]
      omega
    · have hin : s ∈ commentsFrom (.literal '\x27') (o + 1 + 1 + d.utf8Size)
          (b ++ '\x27' :: '/' :: rest) := by
        simpa [commentsFrom, isQuote, hone] using hs
      refine absurd hstart (start_ne_of_astray (r := .literal '\x27') rfl hb ?_ ⟨rfl, hopen⟩ hin)
      simp only [byteLength_cons, byteLength_append, byteLength_nil]
      omega

end Transcribe.Text

/-! ## Literals of the grammar -/

namespace Transcribe.Java

open Grammar (Peg Mode Cursor Derivation Takes Refuses)
open Text (Region commentsFrom commentsFrom_literal_cons CharShape isBreak byteLength)

variable {m : Mode} {c d : Cursor} {ts : List (Derivation Rule)}

def stringPart : Peg Rule :=
  .alt (.seq (.word ['\\']) Rule.anyChar)
    (.seq (.notAhead (.words [['\x22'], ['\n'], ['\r']])) Rule.anyChar)

theorem body_stringLiteral : Rule.grammar.body .stringLiteral =
    .seq (.word ['\x22']) (.seq (.many stringPart) (.word ['\x22'])) := rfl

def plainPart : Peg Rule := .seq (.notAhead (.word ['\x27'])) Rule.anyChar

theorem body_charLiteral : Rule.grammar.body .charLiteral =
    .seq (.word ['\x27'])
      (.seq (.alt (.seq (.word ['\\']) (.seq Rule.anyChar (.many plainPart))) plainPart)
        (.word ['\x27'])) := rfl

theorem stringPart_inStep (hm : m.token = true)
    (h : Takes Rule.grammar m (.once stringPart) c ts d) :
    commentsFrom (.literal '\x22') c.offset c.rest
      = commentsFrom (.literal '\x22') d.offset d.rest := by
  cases h with
  | left h =>
    obtain ⟨_, mid, _, hesc, hany⟩ := h.of_seq hm
    have hesc := hesc.of_word
    obtain ⟨ch, -, hch⟩ := hany.of_one
    rw [hesc.rest_eq, hch.rest_eq, hch.offset_eq, hesc.offset_eq]
    rfl
  | right hrefuse h =>
    obtain ⟨_, mid, _, hahead, hany⟩ := h.of_seq hm
    obtain ⟨rfl, _, hahead⟩ := hahead.of_notAhead
    obtain ⟨ch, -, hch⟩ := hany.of_one
    have hplain : (ch == '\x22' || isBreak ch) = false := by
      have hne : ∀ w ∈ [['\x22'], ['\n'], ['\r']], w ≠ [ch] := by
        rintro w hw rfl
        exact hahead.words_ne hw _ hch.rest_eq
      simp only [List.mem_cons, List.not_mem_nil, or_false, forall_eq_or_imp, forall_eq] at hne
      simp only [isBreak, Bool.or_eq_false_iff, beq_eq_false_iff_ne]
      grind
    -- A backslash that the first alternative left has nothing behind it.
    have hlast : ch = '\\' → d.rest = [] := by
      rintro rfl
      rcases hrefuse.of_seq hm with hword | ⟨_, e, hword, hone⟩
      · exact absurd hch.rest_eq (hword.word_ne _)
      · have he : e.rest = d.rest :=
          List.append_cancel_left (hword.of_word.rest_eq.symm.trans hch.rest_eq)
        cases hd : d.rest with
        | nil => rfl
        | cons a rest => exact absurd (he.trans hd) (hone.one_ne rfl rest)
    rw [hch.rest_eq, hch.offset_eq, List.singleton_append, commentsFrom_literal_cons hlast, hplain]
    rfl

/-- The table passes over a string literal. -/
theorem stringLiteral_inStep (hm : m.token = true)
    (h : Takes Rule.grammar m (.once (Rule.grammar.body .stringLiteral)) c ts d) :
    commentsFrom .code c.offset c.rest = commentsFrom .code d.offset d.rest := by
  rw [body_stringLiteral] at h
  obtain ⟨_, c₁, _, hopen, h⟩ := h.of_seq hm
  obtain ⟨_, c₂, _, hparts, hclose⟩ := h.of_seq hm
  have hopen := hopen.of_word
  have hclose := hclose.of_word
  have hparts : commentsFrom (.literal '\x22') c₁.offset c₁.rest
      = commentsFrom (.literal '\x22') c₂.offset c₂.rest :=
    hparts.of_many (R := fun c d => commentsFrom (.literal '\x22') c.offset c.rest
      = commentsFrom (.literal '\x22') d.offset d.rest) hm (fun _ => rfl)
      fun _ _ _ _ hpart hrest => (stringPart_inStep hm hpart).trans hrest
  calc commentsFrom .code c.offset c.rest
      = commentsFrom (.literal '\x22') c₁.offset c₁.rest := by
        rw [hopen.rest_eq, hopen.offset_eq]; rfl
    _ = commentsFrom (.literal '\x22') c₂.offset c₂.rest := hparts
    _ = commentsFrom .code d.offset d.rest := by
        rw [hclose.rest_eq, hclose.offset_eq]; rfl

/-- What a character literal may look like. -/
theorem charLiteral_shape (hm : m.token = true)
    (h : Takes Rule.grammar m (.once (Rule.grammar.body .charLiteral)) c ts d) :
    ∃ w, c.Reaches w d ∧ CharShape w := by
  rw [body_charLiteral] at h
  obtain ⟨_, c₁, _, hopen, h⟩ := h.of_seq hm
  obtain ⟨_, c₂, _, hinner, hclose⟩ := h.of_seq hm
  have hopen := hopen.of_word
  have hclose := hclose.of_word
  have hplain : ∀ {c ts d}, Takes Rule.grammar m (.once plainPart) c ts d →
      ∃ ch, ch ≠ '\x27' ∧ c.Reaches [ch] d := by
    intro c ts d h
    obtain ⟨_, mid, _, hahead, hany⟩ := h.of_seq hm
    obtain ⟨rfl, _, hahead⟩ := hahead.of_notAhead
    obtain ⟨ch, -, hch⟩ := hany.of_one
    refine ⟨ch, ?_, hch⟩
    rintro rfl
    exact hahead.word_ne _ hch.rest_eq
  cases hinner with
  | left h =>
    obtain ⟨_, c₃, _, hesc, h⟩ := h.of_seq hm
    obtain ⟨_, c₄, _, hany, hmany⟩ := h.of_seq hm
    have hesc := hesc.of_word
    obtain ⟨ch, -, hch⟩ := hany.of_one
    obtain ⟨b, hb, hreach⟩ : ∃ b, '\x27' ∉ b ∧ c₄.Reaches b c₂ := by
      refine hmany.of_many (R := fun c d => ∃ b, '\x27' ∉ b ∧ c.Reaches b d) hm
        (fun c => ⟨[], List.not_mem_nil, .refl c⟩) ?_
      rintro c ts d e hpart ⟨b, hb, hreach⟩
      obtain ⟨ch, hne, hch⟩ := hplain hpart
      refine ⟨[ch] ++ b, ?_, hch.trans hreach⟩
      rw [List.singleton_append, List.mem_cons, not_or]
      exact ⟨hne.symm, hb⟩
    refine ⟨_, ((hopen.trans hesc).trans hch).trans (hreach.trans hclose), b, hb, .inr ⟨ch, rfl⟩⟩
  | right _ h =>
    obtain ⟨ch, hne, hch⟩ := hplain h
    refine ⟨_, hopen.trans (hch.trans hclose), [ch], ?_, .inl rfl⟩
    simpa using hne.symm

end Transcribe.Java
