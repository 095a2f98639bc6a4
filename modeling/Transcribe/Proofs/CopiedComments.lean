/-
  Transcribe.Proofs.CopiedComments — comments in space that is copied.

  Space is copied without some of its indentation and, where the target asks for it, with blanks in
  place of tabs. Both leave the pass in the states it goes through in the source, so the copy has
  the comments of the source, each without its indentation and with its tabs spread.

  The pass is run over the text and over its copy side by side. `Dedented` relates the two states
  where indentation is taken away and `Spreads` where tabs are spread; each has a case for every
  state of the pass, and inside a comment the texts read so far are related as the whole texts are.
  `Copy` puts the two together, and `Ends` says how the pass can stand behind a run of space.
  - `texts_dedent`, `texts_spread`: what taking away indentation and spreading tabs do to comments.
  - `brackets_copy`: they do nothing to the brackets of code.
  - `finish_gap`: behind a run of space the pass is in code, but for a comment that the text or the
    line ends.
-/

import Transcribe.Proofs.Bracket
import Transcribe.Text.Dedent
import Transcribe.Text.Sink

namespace Transcribe.Text

open Scan (opens texts finish)

variable {c : Char} {k : Option Nat} {m m' : Scan} {x w : List Char} {n : Nat} {expand : Bool}

/-! ## Indentation -/

namespace Scan

variable {r : Ruler} {n : Nat}

/-- The states of the pass in a text and in its dedented copy, where the next character stands at
a column of its line's indentation or past it. -/
inductive Dedented (r : Ruler) (n : Nat) : Option Nat → Scan → Scan → Prop where
  | code {k : Option Nat} : Dedented r n k .code .code
  | slash : Dedented r n none .slash .slash
  | line {acc acc' : List Char}
      (h : ∀ x, dedent r n none (acc ++ x) = acc' ++ dedent r n none x) :
      Dedented r n none (.line acc) (.line acc')
  | block {k : Option Nat} {acc acc' : List Char}
      (h : ∀ x, dedent r n none (acc ++ x) = acc' ++ dedent r n k x) :
      Dedented r n k (.block acc) (.block acc')
  | star {acc acc' : List Char}
      (h : ∀ x, dedent r n none (acc ++ x) = acc' ++ dedent r n none x) :
      Dedented r n none (.star acc) (.star acc')
  | literal {k : Option Nat} {q : Char} (hq : isQuote q = true) :
      Dedented r n k (.literal q) (.literal q)
  | escape {q : Char} (hq : isQuote q = true) : Dedented r n none (.escape q) (.escape q)

def behind (c : Char) : Option Nat := if c == '\n' then some 0 else none

theorem behind_of_ne (h : c ≠ '\n') : behind c = none := by simp [behind, h]

theorem behind_of_not_break (h : ¬ isBreak c = true) : behind c = none := by
  refine behind_of_ne ?_
  rintro rfl
  exact h rfl

theorem dedented_opens (c : Char) : Dedented r n (behind c) (opens c) (opens c) := by
  unfold opens
  split
  · rename_i hc
    subst hc
    exact .slash
  · split
    · rename_i hq
      exact .literal hq
    · exact .code

theorem dedented_next (h : Dedented r n k m m')
    (hc : ∀ x, dedent r n k (c :: x) = c :: dedent r n (behind c) x) :
    Dedented r n (behind c) (m.next c) (m'.next c) ∧
      m'.closing c = (m.closing c).map (dedent r n none) := by
  have hgrow : ∀ {acc acc' : List Char},
      (∀ x, dedent r n none (acc ++ x) = acc' ++ dedent r n k x) →
      ∀ x, dedent r n none (acc ++ [c] ++ x) = acc' ++ [c] ++ dedent r n (behind c) x := by
    intro acc acc' hacc x
    rw [List.append_assoc, hacc, List.singleton_append, hc]
    simp
  cases h with
  | code => exact ⟨dedented_opens c, rfl⟩
  | slash =>
    refine ⟨?_, rfl⟩
    simp only [next]
    split
    · rename_i h
      subst h
      exact .line fun x => by simp [dedent]
    · split
      · rename_i h
        subst h
        exact .block fun x => by simp [dedent, behind]
      · exact dedented_opens c
  | @line acc acc' hacc =>
    by_cases hb : isBreak c = true
    · have hself := hacc []
      refine ⟨by simpa [next, hb] using .code, ?_⟩
      simpa [closing, hb, dedent] using hself.symm
    · have hk := behind_of_not_break hb
      have hacc' := hgrow hacc
      rw [hk] at hacc' ⊢
      refine ⟨by simpa [next, hb] using .line hacc', by simp [closing, hb]⟩
  | @block _ acc acc' hacc =>
    refine ⟨?_, rfl⟩
    by_cases hs : c = '*'
    · have hacc' := hgrow hacc
      rw [behind_of_ne (by rw [hs]; decide)] at hacc' ⊢
      simpa [next, hs] using .star (by simpa [hs] using hacc')
    · simpa [next, hs] using .block (hgrow hacc)
  | @star acc acc' hacc =>
    by_cases hs : c = '/'
    · refine ⟨by simpa [next, hs] using .code, ?_⟩
      have := hacc ['/']
      simpa [closing, hs, dedent] using this.symm
    · refine ⟨?_, by simp [closing, hs]⟩
      by_cases hs' : c = '*'
      · have hacc' := hgrow hacc
        rw [behind_of_ne (by rw [hs']; decide)] at hacc' ⊢
        simpa [next, hs'] using .star (by simpa [hs'] using hacc')
      · simpa [next, hs, hs'] using .block (hgrow hacc)
  | @literal _ q hq =>
    refine ⟨?_, rfl⟩
    simp only [next]
    split
    · rename_i hc'
      rw [behind_of_ne (by rw [hc']; decide)]
      exact .escape hq
    · split
      · exact .code
      · exact .literal hq
  | escape hq => exact ⟨.literal hq, rfl⟩

theorem quote_ne_blank {q : Char} (hq : isQuote q = true) (hc : c = ' ' ∨ c = '\t') :
    c ≠ q ∧ c ≠ '\\' ∧ isBreak c = false := by
  have hq : q = '\x22' ∨ q = '\x27' := by simpa [isQuote] using hq
  rcases hc with rfl | rfl <;> rcases hq with rfl | rfl <;> decide

/-- A blank of the indentation that is left out. -/
theorem dedented_drop {k k' : Nat} (h : Dedented r n (some k) m m') (hc : c = ' ' ∨ c = '\t')
    (hdrop : ∀ x, dedent r n (some k) (c :: x) = dedent r n (some k') x) :
    Dedented r n (some k') (m.next c) m' ∧ m.closing c = [] := by
  cases h with
  | code => exact ⟨by rcases hc with rfl | rfl <;> exact .code, rfl⟩
  | @block _ acc acc' hacc =>
    have hne : c ≠ '*' := by rcases hc with rfl | rfl <;> decide
    refine ⟨?_, rfl⟩
    simp only [next, if_neg hne]
    refine .block fun x => ?_
    rw [List.append_assoc, hacc, List.singleton_append, hdrop]
  | literal hq =>
    obtain ⟨h₁, h₂, h₃⟩ := quote_ne_blank hq hc
    exact ⟨by simpa [next, h₁, h₂, h₃] using .literal hq, rfl⟩

/-- A character goes into the copy, or it is such a blank. -/
theorem dedented_step (h : Dedented r n k m m') (c : Char) :
    ((∀ x, dedent r n k (c :: x) = c :: dedent r n (behind c) x) ∧
        Dedented r n (behind c) (m.next c) (m'.next c) ∧
        m'.closing c = (m.closing c).map (dedent r n none)) ∨
      ∃ k', (∀ x, dedent r n k (c :: x) = dedent r n k' x) ∧ (c = ' ' ∨ c = '\t') ∧
        Dedented r n k' (m.next c) m' ∧ m.closing c = [] := by
  cases k with
  | none => exact .inl ⟨fun x => rfl, dedented_next h fun x => rfl⟩
  | some column =>
    by_cases hdrop : (column < n && (c == ' ' || c == '\t')) = true
    · have hc : c = ' ' ∨ c = '\t' := by
        simp only [Bool.and_eq_true, Bool.or_eq_true, beq_iff_eq] at hdrop
        exact hdrop.2
      exact .inr ⟨_, fun x => if_pos hdrop, hc, dedented_drop h hc fun x => if_pos hdrop⟩
    · have hkeep : ∀ x, dedent r n (some column) (c :: x) = c :: dedent r n (behind c) x :=
        fun x => if_neg hdrop
      exact .inl ⟨hkeep, dedented_next h hkeep⟩

theorem pending_dedented (h : Dedented r n k m m') :
    m'.pending = m.pending.map (dedent r n none) := by
  have hend : ∀ k, dedent r n k [] = [] := by intro k; cases k <;> rfl
  cases h with
  | line hacc | block hacc | star hacc =>
    have := hacc []
    simpa [pending, hend] using this.symm
  | code | slash | literal | escape => rfl

/-- The dedented copy of a text has its comments, each of them dedented. -/
theorem texts_dedent (h : Dedented r n k m m') (g : List Char) :
    m'.texts (dedent r n k g) = (m.texts g).map (dedent r n none) ∧
      ∃ k', Dedented r n k' (m.finish g) (m'.finish (dedent r n k g)) := by
  induction g generalizing k m m' with
  | nil =>
    have hend : dedent r n k [] = [] := by cases k <;> rfl
    rw [hend]
    exact ⟨pending_dedented h, k, h⟩
  | cons c g ih =>
    rcases dedented_step h c with ⟨hc, hnext, hclosing⟩ | ⟨k', hc, -, hnext, hclosing⟩
    · obtain ⟨htexts, hfinish⟩ := ih hnext
      rw [hc]
      exact ⟨by simp only [texts, htexts, hclosing, List.map_append], hfinish⟩
    · obtain ⟨htexts, hfinish⟩ := ih hnext
      rw [hc]
      exact ⟨by simp only [texts, htexts, hclosing, List.nil_append], hfinish⟩

theorem Dedented.reads (h : Dedented r n k m m') :
    m'.reads = m.reads := by
  cases h <;> rfl

/-- No bracket is taken away with indentation. -/
theorem brackets_dedent (h : Dedented r n k m m') (g : List Char) :
    m'.brackets (dedent r n k g) = m.brackets g := by
  induction g generalizing k m m' with
  | nil => cases k <;> rfl
  | cons c g ih =>
    rcases dedented_step h c with ⟨hc, hnext, -⟩ | ⟨k', hdrop, hc, hnext, -⟩
    · rw [hc, brackets, brackets, ih hnext, h.reads]
    · have hnot : isBracket c = false := by rcases hc with rfl | rfl <;> rfl
      rw [hdrop, ih hnext, brackets_cons_of_not hnot]

end Scan

/-! ## Tabs -/

inductive Spread : List Char → List Char → Prop where
  | nil : Spread [] []
  | char {c : Char} {x w : List Char} (h : Spread x w) : Spread (c :: x) (c :: w)
  | tab {n : Nat} {x w : List Char} (h : Spread x w) :
      Spread ('\t' :: x) (List.replicate (n + 1) ' ' ++ w)

namespace Spread

theorem refl (x : List Char) : Spread x x := by
  induction x with
  | nil => exact .nil
  | cons c x ih => exact .char ih

theorem append {y z : List Char} (h : Spread x w) (h' : Spread y z) :
    Spread (x ++ y) (w ++ z) := by
  induction h with
  | nil => exact h'
  | char _ ih => exact .char ih
  | tab _ ih =>
    rw [List.append_assoc]
    exact .tab ih

end Spread

namespace Scan

inductive Spreads : Scan → Scan → Prop where
  | code : Spreads .code .code
  | slash : Spreads .slash .slash
  | line {acc acc' : List Char} (h : Spread acc acc') : Spreads (.line acc) (.line acc')
  | block {acc acc' : List Char} (h : Spread acc acc') : Spreads (.block acc) (.block acc')
  | star {acc acc' : List Char} (h : Spread acc acc') : Spreads (.star acc) (.star acc')
  | literal {q : Char} (hq : isQuote q = true) : Spreads (.literal q) (.literal q)
  | escape {q : Char} (hq : isQuote q = true) : Spreads (.escape q) (.escape q)

theorem spreads_opens (c : Char) : Spreads (opens c) (opens c) := by
  unfold opens
  split
  · exact .slash
  · split
    · rename_i hq
      exact .literal hq
    · exact .code

theorem spreads_next (h : Spreads m m') (c : Char) :
    Spreads (m.next c) (m'.next c) ∧ List.Forall₂ Spread (m.closing c) (m'.closing c) := by
  have hgrow : ∀ {acc acc' : List Char}, Spread acc acc' → Spread (acc ++ [c]) (acc' ++ [c]) :=
    fun hacc => hacc.append (.refl [c])
  cases h with
  | code => exact ⟨spreads_opens c, .nil⟩
  | slash =>
    refine ⟨?_, .nil⟩
    simp only [next]
    split
    · exact .line (.refl _)
    · split
      · exact .block (.refl _)
      · exact spreads_opens c
  | line hacc =>
    simp only [next, closing]
    split
    · exact ⟨.code, .cons hacc .nil⟩
    · exact ⟨.line (hgrow hacc), .nil⟩
  | block hacc =>
    refine ⟨?_, .nil⟩
    simp only [next]
    split
    · exact .star (hgrow hacc)
    · exact .block (hgrow hacc)
  | star hacc =>
    simp only [next, closing]
    split
    · exact ⟨.code, .cons (hgrow hacc) .nil⟩
    · split
      · exact ⟨.star (hgrow hacc), .nil⟩
      · exact ⟨.block (hgrow hacc), .nil⟩
  | literal hq =>
    refine ⟨?_, .nil⟩
    simp only [next]
    split
    · exact .escape hq
    · split
      · exact .code
      · exact .literal hq
  | escape hq => exact ⟨.literal hq, .nil⟩

def pass : Scan → List Char → Scan
  | .code, _ | .slash, _ => .code
  | .line acc, w => .line (acc ++ w)
  | .block acc, w | .star acc, w => .block (acc ++ w)
  | .literal q, _ | .escape q, _ => .literal q

theorem next_blank (h : Spreads m m') (hc : c = ' ' ∨ c = '\t') :
    (m.next c = m.pass [c] ∧ m.closing c = []) ∧ m'.next c = m'.pass [c] ∧ m'.closing c = [] := by
  cases h with
  | literal hq =>
    obtain ⟨h₁, h₂, h₃⟩ := quote_ne_blank hq hc
    simp [next, pass, closing, h₁, h₂, h₃]
  | escape hq => simp [next, pass, closing]
  | _ => rcases hc with rfl | rfl <;> simp [next, pass, closing, opens, isQuote, isBreak]

theorem pass_pass (m : Scan) (v w : List Char) : (m.pass v).pass w = m.pass (v ++ w) := by
  cases m <;> simp [pass]

/-- A tab and the blanks in its place. -/
theorem spreads_pass (h : Spreads m m') (n : Nat) :
    Spreads (m.pass ['\t']) (m'.pass (List.replicate (n + 1) ' ')) := by
  have htab : Spread ['\t'] (List.replicate (n + 1) ' ') := by
    simpa using Spread.tab (n := n) .nil
  cases h with
  | code | slash => exact .code
  | line h => exact .line (h.append htab)
  | block h | star h => exact .block (h.append htab)
  | literal hq | escape hq => exact .literal hq

theorem finish_blanks (h : Spreads m m') (n : Nat) (w : List Char) :
    m'.finish (List.replicate (n + 1) ' ') = m'.pass (List.replicate (n + 1) ' ') ∧
      m'.texts (List.replicate (n + 1) ' ' ++ w)
        = (m'.pass (List.replicate (n + 1) ' ')).texts w := by
  induction n generalizing m m' with
  | zero =>
    obtain ⟨-, hnext, hclosing⟩ := next_blank h (.inl rfl)
    simp [texts, hnext, hclosing]
  | succ n ih =>
    obtain ⟨-, hnext, hclosing⟩ := next_blank h (.inl rfl)
    have hself := (spreads_next h ' ').1
    rw [hnext] at hself
    obtain ⟨hfinish, htexts⟩ := ih hself
    have hcons : List.replicate (n + 2) ' ' = [' '] ++ List.replicate (n + 1) ' ' := rfl
    refine ⟨?_, ?_⟩
    · rw [hcons, List.singleton_append, finish_cons, hnext, hfinish, pass_pass]
      rfl
    · rw [hcons, ← pass_pass, ← htexts, ← hnext]
      simp [texts, hclosing]

theorem pending_spreads (h : Spreads m m') :
    List.Forall₂ Spread m.pending m'.pending := by
  cases h with
  | line h | block h | star h => exact .cons h .nil
  | code | slash | literal | escape => exact .nil

/-- A copy with tabs spread has the comments of the text, each with its tabs spread. -/
theorem texts_spread (hx : Spread x w) (h : Spreads m m') :
    List.Forall₂ Spread (m.texts x) (m'.texts w) ∧ Spreads (m.finish x) (m'.finish w) := by
  induction hx generalizing m m' with
  | nil => exact ⟨pending_spreads h, h⟩
  | @char c x w _ ih =>
    obtain ⟨hnext, hclosing⟩ := spreads_next h c
    obtain ⟨htexts, hfinish⟩ := ih hnext
    exact ⟨List.rel_append hclosing htexts, hfinish⟩
  | @tab n x w _ ih =>
    obtain ⟨⟨hnext, hclosing⟩, -⟩ := next_blank h (.inr rfl)
    obtain ⟨hblanks, hcopy⟩ := finish_blanks h n w
    obtain ⟨htexts, hfinish⟩ := ih (spreads_pass h n)
    rw [texts, hnext, hclosing, hcopy, finish_append, finish_cons, hnext, hblanks]
    exact ⟨htexts, hfinish⟩

theorem Spreads.reads (h : Spreads m m') : m'.reads = m.reads := by
  cases h <;> rfl

theorem brackets_spread (hx : Spread x w) (h : Spreads m m') :
    m'.brackets w = m.brackets x := by
  induction hx generalizing m m' with
  | nil => rfl
  | @char c x w _ ih => rw [brackets, brackets, ih (spreads_next h c).1, h.reads]
  | @tab n x w _ ih =>
    rw [brackets_append, brackets_spaces, (finish_blanks h n w).1, List.nil_append,
      ih (spreads_pass h n), brackets_cons_of_not rfl, (next_blank h (.inr rfl)).1.1]

end Scan

/-! ## Copies -/

def Copy (expand : Bool) (x w : List Char) : Prop := if expand then Spread x w else w = x

structure Alike (m m' : Scan) : Prop where
  code : m = .code → m' = .code
  line : ∀ acc, m = .line acc → ∃ acc', m' = .line acc'

theorem Scan.Dedented.alike {r : Ruler} (h : Scan.Dedented r n k m m') : Alike m m' := by
  constructor
  · rintro rfl
    cases h
    rfl
  · rintro acc rfl
    cases h
    exact ⟨_, rfl⟩

theorem Scan.Spreads.alike (h : Scan.Spreads m m') : Alike m m' := by
  constructor
  · rintro rfl
    cases h
    rfl
  · rintro acc rfl
    cases h
    exact ⟨_, rfl⟩

theorem Alike.trans {a b c : Scan} (h : Alike a b) (h' : Alike b c) : Alike a c := by
  refine ⟨fun ha => h'.code (h.code ha), fun acc ha => ?_⟩
  obtain ⟨acc', hb⟩ := h.line acc ha
  exact h'.line acc' hb

/-- Copied space has the comments it has in the source, each copied. -/
theorem texts_copy {r : Ruler} {g : List Char} (h : Copy expand (dedent r n k g) w) :
    List.Forall₂ (fun v t => Copy expand (dedent r n none v) t) (texts .code g) (texts .code w) ∧
      Alike (finish .code g) (finish .code w) := by
  obtain ⟨htexts, k', hfinish⟩ := Scan.texts_dedent (r := r) (n := n) (k := k) .code g
  cases expand with
  | false =>
    obtain rfl : w = dedent r n k g := h
    rw [htexts, List.forall₂_map_right_iff]
    exact ⟨List.forall₂_same.2 fun v _ => rfl, hfinish.alike⟩
  | true =>
    obtain ⟨hspread, hfinish'⟩ := Scan.texts_spread (x := dedent r n k g) (w := w) h .code
    rw [htexts, List.forall₂_map_left_iff] at hspread
    exact ⟨hspread, hfinish.alike.trans hfinish'.alike⟩

theorem brackets_copy {r : Ruler} {g : List Char} (h : Copy expand (dedent r n k g) w) :
    Scan.brackets .code w = Scan.brackets .code g := by
  have hdedent := Scan.brackets_dedent (r := r) (n := n) (k := k) .code g
  cases expand with
  | false =>
    obtain rfl : w = dedent r n k g := h
    exact hdedent
  | true => exact (Scan.brackets_spread (x := dedent r n k g) (w := w) h .code).trans hdedent

theorem Copy.nil (h : Copy expand [] w) : w = [] := by
  cases expand with
  | false => exact h
  | true =>
    have h : Spread [] w := h
    cases h
    rfl

theorem Copy.cons (h : Copy expand (c :: x) w) :
    ∃ c' w', w = c' :: w' ∧ (c' = c ∨ c = '\t' ∧ c' = ' ') := by
  cases expand with
  | false => exact ⟨c, x, h, .inl rfl⟩
  | true =>
    have h : Spread (c :: x) w := h
    cases h with
    | char _ => exact ⟨c, _, rfl, .inl rfl⟩
    | tab _ => exact ⟨' ', _, rfl, .inr ⟨rfl, rfl⟩⟩

theorem Sink.write_nil (k : Sink) : k.write "" = k := by simp [Sink.write, Ruler.through]

/-- The second text is the first with each tab replaced by at least one and at most `n` blanks. -/
inductive Expands (n : Nat) : List Char → List Char → Prop where
  | nil : Expands n [] []
  | char {c : Char} {x w : List Char} (hc : c ≠ '\t') (h : Expands n x w) :
      Expands n (c :: x) (c :: w)
  | tab {k : Nat} {x w : List Char} (hpos : 1 ≤ k) (hle : k ≤ n) (h : Expands n x w) :
      Expands n ('\t' :: x) (List.replicate k ' ' ++ w)

theorem Expands.spread (h : Expands n x w) : Spread x w := by
  induction h with
  | nil => exact .nil
  | char _ _ ih => exact .char ih
  | tab hpos _ _ ih =>
    rw [← Nat.sub_add_cancel hpos]
    exact .tab ih

/-- Writing with tabs expanded is writing a text with each tab replaced by blanks, no more than the
indentation. -/
theorem exists_expands {indent : Nat} (hindent : 0 < indent) (k : Sink) (x : List Char) :
    ∃ w, Expands indent x w ∧ k.writeExpanded indent x = k.write (String.ofList w) := by
  induction x generalizing k with
  | nil => exact ⟨[], .nil, (Sink.write_nil k).symm⟩
  | cons c x ih =>
    rw [Sink.writeExpanded]
    by_cases hc : c = '\t'
    · subst hc
      have hlt := Nat.mod_lt k.column hindent
      obtain ⟨w, hw, hk⟩ := ih (k.writeSpaces (indent - k.column % indent))
      refine ⟨_, .tab (k := indent - k.column % indent) (by omega) (by omega) hw, ?_⟩
      rw [if_pos (beq_self_eq_true _), hk, Sink.writeSpaces, Sink.write_write,
        String.ofList_append]
    · obtain ⟨w, hw, hk⟩ := ih (k.write (String.ofList [c]))
      refine ⟨_, .char hc hw, ?_⟩
      rw [if_neg (by simpa using hc), hk, Sink.write_write, ← String.ofList_append,
        List.singleton_append]

/-- Writing with tabs expanded is writing a text with the tabs spread. -/
theorem exists_writeExpanded {indent : Nat} (hindent : 0 < indent) (k : Sink) (x : List Char) :
    ∃ w, Spread x w ∧ k.writeExpanded indent x = k.write (String.ofList w) := by
  obtain ⟨w, hw, hk⟩ := exists_expands hindent k x
  exact ⟨w, hw.spread, hk⟩

/-! ## The end of a run of space -/

namespace Scan

def Ends (toBreak : Bool) (r : List Char) : Scan → Prop
  | .code => True
  | .line _ => ∀ c r', r = c :: r' → toBreak = true ∧ isBreak c = true
  | .block _ | .star _ => r = []
  | _ => False

inductive Within : Inside → Scan → Prop where
  | space : Within .space .code
  | line {acc : List Char} : Within .line (.line acc)
  | block {acc : List Char} : Within .block (.block acc)

theorem opens_space (h : (isBlank c || isBreak c) = true) : opens c = .code := by
  simp only [isBlank, isBreak, Bool.or_eq_true, beq_iff_eq] at h
  rcases h with ((rfl | rfl) | rfl) | rfl | rfl <;> rfl

/-- Behind a run of space the pass is in code, but for a comment that the line or the text ends.
The run has no brackets of code. -/
theorem finish_gap {b : Bool} {i : Inside} (hm : Within i m) (cs : List Char) :
    ∃ g r, cs = g ++ r ∧ byteLength g = spaceLength b i cs ∧ Ends b r (m.finish g) ∧
      m.brackets g = [] := by
  have hone : ∀ {c : Char}, (isBlank c || isBreak c) = true → c.utf8Size = 1 := utf8Size_of_space
  have htwo : ∀ (c d : Char) (g : List Char), c.utf8Size = 1 → d.utf8Size = 1 →
      byteLength (c :: d :: g) = 2 + byteLength g := by
    intro c d g hc hd
    rw [byteLength_cons, byteLength_cons, hc, hd, ← Nat.add_assoc]
  -- The walk over space drives the induction, and the pass is in the state that belongs to it.
  fun_induction spaceLength b i cs generalizing m with
  | case1 cs ih =>
    cases hm
    obtain ⟨g, r, rfl, hlen, hend, hnone⟩ := ih .line
    exact ⟨'/' :: '/' :: g, r, rfl, by rw [← hlen, htwo _ _ _ rfl rfl], hend, hnone⟩
  | case2 cs ih =>
    cases hm
    obtain ⟨g, r, rfl, hlen, hend, hnone⟩ := ih .block
    exact ⟨'/' :: '*' :: g, r, rfl, by rw [← hlen, htwo _ _ _ rfl rfl], hend, hnone⟩
  | case3 c cs _ _ hb _ =>
    cases hm
    exact ⟨[], c :: cs, rfl, rfl, trivial, rfl⟩
  | case4 c cs _ _ hb _ ih | case5 c cs _ _ _ hb ih =>
    cases hm
    obtain ⟨g, r, rfl, hlen, hend, hnone⟩ := ih .space
    have hspace : (isBlank c || isBreak c) = true := by simp [hb]
    refine ⟨c :: g, r, rfl, by rw [byteLength_cons, hlen, hone hspace], ?_⟩
    rw [finish_cons, brackets_cons_of_not (not_isBracket_of_space hspace), next, opens_space hspace]
    exact ⟨hend, hnone⟩
  | case6 c cs _ _ _ _ =>
    cases hm
    exact ⟨[], c :: cs, rfl, rfl, trivial, rfl⟩
  | case7 c cs hb ht =>
    cases hm
    refine ⟨[], c :: cs, rfl, rfl, ?_, rfl⟩
    rintro _ _ ⟨⟩
    exact ⟨ht, hb⟩
  | case8 c cs hb _ ih =>
    cases hm
    obtain ⟨g, r, rfl, hlen, hend, hnone⟩ := ih .space
    refine ⟨c :: g, r, rfl, by rw [byteLength_cons, hlen, hone (by simp [hb])], ?_⟩
    rw [finish_cons, brackets_cons_inside rfl, next, if_pos hb]
    exact ⟨hend, hnone⟩
  | case9 c cs hb ih =>
    cases hm
    obtain ⟨g, r, rfl, hlen, hend, hnone⟩ := ih .line
    refine ⟨c :: g, r, rfl, by rw [byteLength_cons, hlen], ?_⟩
    rw [finish_cons, brackets_cons_inside rfl, next, if_neg hb]
    exact ⟨hend, hnone⟩
  | case10 cs ih =>
    cases hm
    obtain ⟨g, r, rfl, hlen, hend, hnone⟩ := ih .space
    exact ⟨'*' :: '/' :: g, r, rfl, by rw [← hlen, htwo _ _ _ rfl rfl], hend, hnone⟩
  | case11 c cs hc ih =>
    cases hm with | @block acc => ?_
    obtain ⟨g, r, rfl, hlen, hend, hnone⟩ := ih (m := .block (acc ++ [c])) .block
    refine ⟨c :: g, r, rfl, by rw [byteLength_cons, hlen], ?_⟩
    by_cases hs : c = '*'
    · subst hs
      cases g with
      | nil => exact ⟨hend, rfl⟩
      | cons d g =>
        have hd : ∀ x, d :: g ≠ '/' :: x := by
          rintro x ⟨⟩
          exact hc (g ++ r) rfl rfl
        rw [finish_cons, brackets_cons_inside rfl, next, if_pos rfl,
          (star_of_head hd).2 (by simp), brackets_star_of_head hd]
        exact ⟨hend, hnone⟩
    · rw [finish_cons, brackets_cons_inside rfl, next, if_neg hs]
      exact ⟨hend, hnone⟩
  | case12 i =>
    refine ⟨[], [], rfl, rfl, ?_, rfl⟩
    cases hm with
    | space => trivial
    | line => rintro _ _ ⟨⟩
    | block => rfl

end Scan

end Transcribe.Text
