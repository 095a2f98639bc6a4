/-
  Transcribe.Proofs.Reload.Scalar — texts that read as themselves without quotes.

  A flat text has one line, no mark at its start, and nothing inside that looks like the end of a
  key or the start of a comment. The writer leaves only such texts without quotes. The reader takes
  one whole, up to a colon that ends it as a key or to a line that is indented less. It goes word by
  word with the gaps between, so a stretch of a flat text is `Smooth`: it ends in a character of a
  word, and no mark in it can end a scalar.
  - `flat_of_styleOf`, `flat_of_word`, `flat_toString`: what is flat.
  - `plain?_key`, `plain?_value`: where the reader stops.
-/

import Transcribe.Data.Yaml.Writer

namespace Transcribe.Data.Yaml

variable {c : Char} {w : List Char} {p : Position} {x : Context}

/-! ## Texts without quotes -/

/-- A stretch of one line that ends in a character of a word, and in which nothing looks like the
end of a key or the start of a comment. -/
structure Smooth (w : List Char) : Prop where
  unbroken : ∀ c ∈ w, isBreak c = false
  last : ∃ c, w.getLast? = some c ∧ isBlank c = false ∧ c ≠ ':'
  colon : hasPair (· == ':') (fun c => isBlank c || isBreak c) w = false
  hash : hasPair (fun c => isBlank c || isBreak c) (· == '#') w = false

theorem Smooth.tail {d : Char} (h : Smooth (c :: d :: w)) : Smooth (d :: w) where
  unbroken := (List.forall_mem_cons.1 h.unbroken).2
  last := by simpa only [List.getLast?_cons_cons] using h.last
  colon := (Bool.or_eq_false_iff.1 h.colon).2
  hash := (Bool.or_eq_false_iff.1 h.hash).2

structure Flat (w : List Char) : Prop extends Smooth w where
  printed : ∀ c ∈ w, isPrinted c = true
  first : ∃ c cs, w = c :: cs ∧ isIndicator c = false ∧ isBlank c = false ∧
    (c = '-' ∨ c = '?' → endsWord cs = false)
  unmarked : ∀ t, startsMarker (w ++ ':' :: t) = false

theorem isBlank_of_printed (h : isPrinted c = true) (hc : c ≠ ' ') :
    isBlank c = false := by
  have ht : c ≠ '\t' := by
    rintro rfl
    exact absurd h (by decide)
  simp [isBlank, hc, ht]

theorem startsMarker_colon {w : List Char} (hdash : "---".toList.isPrefixOf w = false)
    (hdots : "...".toList.isPrefixOf w = false) (t : List Char) :
    startsMarker (w ++ ':' :: t) = false := by
  match w with
  | [] => rfl
  | [a] => simp [startsMarker]
  | [a, b] => simp [startsMarker]
  | a :: b :: c :: w =>
    simp only [List.cons_append]
    unfold startsMarker
    split <;> simp_all

theorem flat_of_allowsPlain (hne : w ≠ []) (h : allowsPlain w = true) :
    Flat w := by
  simp only [allowsPlain, hasMark, Bool.and_eq_true, Bool.not_eq_true', Bool.or_eq_false_iff,
    bne_iff_ne, List.all_eq_true, List.any_eq_false, Bool.not_eq_true] at h
  obtain ⟨⟨⟨⟨hprinted, hbreak⟩, hhead⟩, hlast⟩, ⟨⟨⟨⟨⟨⟨hdashes, hdots⟩, hindicator⟩, hdash⟩,
    hcolon⟩, hend⟩, hhash⟩⟩ := h
  refine ⟨⟨hbreak, ?_, hcolon, hhash⟩, hprinted, ?_, startsMarker_colon hdashes hdots⟩
  · have hmem := List.getLast_mem hne
    rw [List.getLast?_eq_some_getLast hne] at hlast hend ⊢
    exact ⟨_, rfl, isBlank_of_printed (hprinted _ hmem) (by simpa using hlast), by simpa using hend⟩
  · obtain ⟨c, cs, rfl⟩ := List.exists_cons_of_ne_nil hne
    refine ⟨c, cs, rfl, by simpa using hindicator, ?_, ?_⟩
    · exact isBlank_of_printed (hprinted c List.mem_cons_self) (by simpa using hhead)
    · intro hc
      rcases hc with rfl | rfl <;> simpa using hdash

/-- A text that the writer leaves without quotes. -/
theorem flat_of_styleOf {t : String} (h : styleOf t = .plain) : Flat t.toList := by
  simp only [styleOf] at h
  split at h
  · split at h <;> cases h
  · split at h
    · rename_i hplain
      simp only [Bool.and_eq_true, Bool.not_eq_true'] at hplain
      refine flat_of_allowsPlain ?_ hplain.1
      intro hnil
      obtain rfl : t = "" := by simpa using hnil
      exact absurd hplain.2 (by decide)
    · split at h <;> cases h

/-! ## Words -/

def isWordChar (c : Char) : Bool := c.isAlphanum || c == '_'

theorem hasPair_eq_false {p q : Char → Bool} (h : ∀ c ∈ w, p c = false) :
    hasPair p q w = false := by
  fun_induction hasPair p q w with
  | case1 c d cs ih =>
    obtain ⟨hc, hcs⟩ := List.forall_mem_cons.1 h
    rw [hc, ih hcs]
    rfl
  | case2 => rfl

theorem isPrinted_of_isWordChar (h : isWordChar c = true) : isPrinted c = true := by
  have hrange : 0x20 ≤ c.toNat ∧ c.toNat ≤ 0x7e := by
    delta isWordChar Char.isAlphanum Char.isAlpha Char.isUpper Char.isLower Char.isDigit at h
    simp only [Bool.or_eq_true, Bool.and_eq_true, decide_eq_true_eq, beq_iff_eq,
      UInt32.le_iff_toNat_le, ge_iff_le] at h
    rcases h with ((⟨h₁, h₂⟩ | ⟨h₁, h₂⟩) | ⟨h₁, h₂⟩) | rfl
    · exact ⟨Nat.le_trans (by decide) h₁, Nat.le_trans h₂ (by decide)⟩
    · exact ⟨Nat.le_trans (by decide) h₁, Nat.le_trans h₂ (by decide)⟩
    · exact ⟨Nat.le_trans (by decide) h₁, Nat.le_trans h₂ (by decide)⟩
    · decide
  simp [isPrinted, hrange]

/-- No character of a word has a meaning of its own. -/
theorem not_mark_of_isWordChar (h : isWordChar c = true) :
    isBlank c = false ∧ isBreak c = false ∧ isIndicator c = false ∧
      c ≠ ':' ∧ c ≠ '.' ∧ c ≠ '-' ∧ c ≠ '?' := by
  have hne : ∀ d, isWordChar d = false → c ≠ d := by
    rintro _ hd rfl
    rw [h] at hd
    cases hd
  refine ⟨?_, ?_, ?_, hne _ (by decide), hne _ (by decide), hne _ (by decide), hne _ (by decide)⟩
  · simp [isBlank, hne ' ' (by decide), hne '\t' (by decide)]
  · simp [isBreak, isSeparator, hne '\n' (by decide), hne '\r' (by decide),
      hne '\u0085' (by decide), hne '\u2028' (by decide), hne '\u2029' (by decide)]
  · rw [isIndicator, List.contains_eq_mem, decide_eq_false_iff_not]
    intro hmem
    have hword := (List.all_eq_true (p := fun d => !isWordChar d)).1 (by decide) c hmem
    exact hne c (by simpa using hword) rfl

/-- A word is read as itself. -/
theorem flat_of_word (hne : w ≠ []) (h : w.all isWordChar = true) : Flat w := by
  obtain ⟨c, cs, rfl⟩ := List.exists_cons_of_ne_nil hne
  have hword := List.all_eq_true.1 h
  have hmark := fun d hd => not_mark_of_isWordChar (hword d hd)
  obtain ⟨hblank, -, hindicator, -, hdot, hdash, hquestion⟩ := hmark c List.mem_cons_self
  have hlast := hmark _ (List.getLast_mem hne)
  refine ⟨⟨fun d hd => (hmark d hd).2.1, ⟨_, List.getLast?_eq_some_getLast hne, hlast.1,
    hlast.2.2.2.1⟩, hasPair_eq_false ?_, hasPair_eq_false ?_⟩,
    fun d hd => isPrinted_of_isWordChar (hword d hd), ⟨c, cs, rfl, hindicator, hblank, ?_⟩,
    startsMarker_colon ?_ ?_⟩
  · intro d hd
    simpa using (hmark d hd).2.2.2.1
  · intro d hd
    rw [(hmark d hd).1, (hmark d hd).2.1]
    rfl
  · rintro (hc | hc)
    · exact absurd hc hdash
    · exact absurd hc hquestion
  · simp [List.isPrefixOf, hdash.symm]
  · simp [List.isPrefixOf, hdot.symm]

theorem flat_toString (n : Nat) : Flat (toString n).toList := by
  have hdigits : (toString n).toList = Nat.toDigits 10 n := Nat.toList_repr
  rw [hdigits]
  refine flat_of_word Nat.toDigits_ne_nil (List.all_eq_true.2 ?_)
  intro c hc
  have hdigit := Nat.isDigit_of_mem_toDigits (by decide) (by decide) hc
  simp [isWordChar, Char.isAlphanum, hdigit]

/-! ## Reading a plain scalar -/

@[simp] theorem Position.skip_zero (p : Position) : p.skip 0 = p := rfl

theorem Position.skip_skip (p : Position) (m n : Nat) : (p.skip m).skip n = p.skip (m + n) := by
  simp only [Position.skip, Position.mk.injEq, true_and]
  omega

@[simp] theorem Reading.after_after (a b : List Char) (r : Reading) :
    (r.after b).after a = r.after (a ++ b) := by
  simp [Reading.after]

theorem plain?_cons {g : Gap} (hc : isBreak c = false) (cs : List Char) :
    plain? x p g (c :: cs) =
      if isBlank c then
        if c == '\t' && g.first?.isSome && p.column < x.indent then none
        else plain? x (p.skip 1) (g.addBlank c) cs
      else if x.ends p (!g.isEmpty) c cs then some (⟨[], ⟨p, c :: cs⟩⟩, g.first?.isSome)
      else if x.misplaces c cs then none
      else (plain? x (p.skip 1) {} cs).map fun r => (r.1.after (g.text ++ [c]), r.2) := by
  rw [plain?, hc]
  · rfl
  · rintro r rfl -
    cases hc

theorem endsWord_append {cs : List Char} (h : endsWord cs = false) (rest : List Char) :
    endsWord (cs ++ rest) = false := by
  cases cs with
  | nil => cases h
  | cons c cs => exact h

/-- No colon in a smooth text ends a key. -/
theorem Smooth.not_colon (h : Smooth (c :: w)) (rest : List Char) :
    (c == ':' && endsWord (w ++ rest)) = false := by
  cases w with
  | nil =>
    obtain ⟨d, hd, -, hne⟩ := h.last
    obtain rfl : c = d := by simpa using hd
    simp [hne]
  | cons d w => exact (Bool.or_eq_false_iff.1 h.colon).1

/-- Inside a smooth text no character ends the scalar. -/
theorem Smooth.not_ends {gap : Bool} (h : Smooth (c :: w)) (hflow : x.flow = false)
    (rest : List Char) (hgap : gap = true → c ≠ '#' ∧ x.indent ≤ p.column ∧ 0 < p.column) :
    x.ends p gap c (w ++ rest) = false := by
  unfold Context.ends
  rw [h.not_colon, hflow]
  cases gap with
  | false => rfl
  | true =>
    obtain ⟨hhash, hindent, hpos⟩ := hgap rfl
    have hne : p.column ≠ 0 := by omega
    simp [hhash, hne, hindent]

/-- The characters of a scalar are read one by one, and its blanks when another character follows.
The gap `g` is what was read of blanks before. -/
theorem plain?_smooth (hflow : x.flow = false) (h : Smooth w) (rest : List Char) (p : Position)
    (g : Gap) (hg : g.first? = none) (hindent : x.indent ≤ p.column + 1)
    (hgap : g.isEmpty = false → w.head? ≠ some '#' ∧ x.indent ≤ p.column ∧ 0 < p.column) :
    plain? x p g (w ++ rest)
      = (plain? x (p.skip w.length) {} rest).map fun r => (r.1.after (g.text ++ w), r.2) := by
  induction w generalizing p g with
  | nil =>
    obtain ⟨c, hc, -⟩ := h.last
    cases hc
  | cons c w ih =>
    have hnext : x.indent ≤ (p.skip 1).column + 1 := by
      show _ ≤ p.column + 1 + 1
      omega
    rw [List.cons_append, plain?_cons (h.unbroken c List.mem_cons_self)]
    by_cases hblank : isBlank c = true
    · have hadd : g.addBlank c = { g with blanks := g.blanks ++ [c] } := by simp [Gap.addBlank, hg]
      have htext : (g.addBlank c).text = g.text ++ [c] := by simp [hadd, Gap.text, hg]
      rw [if_pos hblank, if_neg (by simp [hg])]
      cases w with
      | nil =>
        obtain ⟨d, hd, hd', -⟩ := h.last
        obtain rfl : c = d := by simpa using hd
        rw [hblank] at hd'
        cases hd'
      | cons d w =>
        have hd : d ≠ '#' := by
          rintro rfl
          have := h.hash
          simp [hasPair, hblank] at this
        rw [ih h.tail (p.skip 1) _ (by rw [hadd]; exact hg) hnext
          fun _ => ⟨by simpa using hd, hindent, Nat.succ_pos _⟩, Position.skip_skip, htext]
        simp [Nat.add_comm]
    · have hends : x.ends p (!g.isEmpty) c (w ++ rest) = false :=
        h.not_ends hflow rest fun hne => by simpa using hgap (by simpa using hne)
      have hmisplaces : x.misplaces c (w ++ rest) = false := by simp [Context.misplaces, hflow]
      rw [if_neg hblank, if_neg (by simp [hends]), if_neg (by simp [hmisplaces])]
      cases w with
      | nil => rfl
      | cons d w =>
        rw [ih h.tail (p.skip 1) {} rfl hnext (by simp [Gap.isEmpty]), Position.skip_skip]
        simp [Function.comp_def, Gap.text, Nat.add_comm]

def Fresh (rest : List Char) : Prop :=
  ∀ c ∈ rest.head?, isBlank c = false ∧ isBreak c = false ∧ c ≠ '#'

theorem Flat.fresh (h : Flat w) (rest : List Char) : Fresh (w ++ rest) := by
  obtain ⟨c, cs, rfl, hindicator, hblank, -⟩ := h.first
  intro d hd
  obtain rfl : c = d := by simpa using hd
  refine ⟨hblank, h.unbroken c List.mem_cons_self, ?_⟩
  rintro rfl
  cases hindicator

theorem Flat.pos (h : Flat w) : 0 < w.length := by
  obtain ⟨c, cs, rfl, -⟩ := h.first
  exact Nat.succ_pos _

/-- A scalar in front of a colon that ends a key. -/
theorem plain?_key {t : List Char} (h : Flat w) (hflow : x.flow = false)
    (hindent : x.indent ≤ p.column + 1) (ht : endsWord t = true) :
    plain? x p {} (w ++ ':' :: t) = some (⟨w, ⟨p.skip w.length, ':' :: t⟩⟩, false) := by
  rw [plain?_smooth hflow h.toSmooth _ p {} rfl hindent (by simp [Gap.isEmpty]),
    plain?_cons (by decide), if_neg (by decide), if_pos (by simp [Context.ends, ht])]
  simp [Reading.after, Gap.text]

theorem plain?_blanks (g : Gap) (hg : g.first?.isSome = true) (p : Position) (n : Nat)
    (rest : List Char) :
    plain? x p g (List.replicate n ' ' ++ rest) = plain? x (p.skip n) g rest := by
  induction n generalizing p with
  | zero => rfl
  | succ n ih =>
    have hadd : g.addBlank ' ' = g := by simp [Gap.addBlank, hg]
    rw [List.replicate_succ, List.cons_append, plain?_cons (by decide), if_pos (by decide),
      if_neg (by simp), hadd, ih, Position.skip_skip, Nat.add_comm]

/-- A scalar at the end of a line, with a line behind it that is indented less than the scalar. -/
theorem plain?_value {v rest : List Char} {n : Nat} (h : Flat v) (hflow : x.flow = false)
    (hindent : x.indent ≤ p.column + 1) (hn : n < x.indent) (hrest : Fresh rest) :
    plain? x p {} (v ++ '\n' :: (List.replicate n ' ' ++ rest))
      = some (⟨v, ⟨((p.skip v.length).newline 1).skip n, rest⟩⟩, true) := by
  have hbreak : ∀ q cs, plain? x q {} ('\n' :: cs)
      = plain? x (q.newline 1) (Gap.addBreak {} ['\n']) cs := by
    intro q cs
    rw [plain?]
    · rfl
    · rintro r ⟨⟩
  have hend : ∀ q : Position, q.column < x.indent →
      plain? x q (Gap.addBreak {} ['\n']) rest = some (⟨[], ⟨q, rest⟩⟩, true) := by
    intro q hq
    cases rest with
    | nil => rfl
    | cons c cs =>
      obtain ⟨hblank, hbreak, -⟩ := hrest c rfl
      rw [plain?_cons hbreak, if_neg (by simp [hblank]),
        if_pos (by simp [Context.ends, hflow, hq, Gap.isEmpty, Gap.addBreak])]
      rfl
  rw [plain?_smooth hflow h.toSmooth _ p {} rfl hindent (by simp [Gap.isEmpty]), hbreak,
    plain?_blanks _ rfl, hend _ (by simpa [Position.skip, Position.newline] using hn)]
  simp [Reading.after, Gap.text]

end Transcribe.Data.Yaml
