/-
  Transcribe.Proofs.Indent — what taking indentation away does to the lines of a text.

  A line ends with a line feed, a carriage return or the two together. Taking indentation away
  goes by line feeds alone: behind a lone carriage return a line keeps its indentation. On the
  lines it cuts it takes whole characters, the fewest that reach the width. So the columns that
  are left are the columns there were less the width just where a blank or a tab ends at the
  width, and no tab behind it stands on other stops than before.

  A text is cut behind its line breaks into lines (`lines`), each of which is its indentation, the
  rest and the break that ends it (`Line`, `Line.Formed`). `Starts` says which of them are cut:
  those behind a line feed, and the first where it starts a line of the output. `Cuts` is what a cut
  leaves of an indentation. Columns are measured by a ruler on which a blank is one column wide
  (`Ruler.Plain`), and they have no bound, so every blank or tab leads to a greater one.
  - `lines_dedent`: the lines of a dedented text, one by one.
  - `column_cut_iff`: when a cut line is left with the columns it should be left with.
-/

import Transcribe.Proofs.CopiedComments
import Transcribe.Pen.Basic

namespace Transcribe.Text

/-! ## Lines -/

structure Line where
  indent : List Char
  body : List Char
  ending : List Char
  deriving DecidableEq, Repr

variable {c : Char} {l : Line} {cs : List Char}

def isIndent (c : Char) : Bool := c == ' ' || c == '\t'

namespace Line

def cons (c : Char) (l : Line) : Line :=
  if isIndent c then { l with indent := c :: l.indent }
  else { l with indent := [], body := c :: (l.indent ++ l.body) }

def column (r : Ruler) (l : Line) : Nat := r.across 0 l.indent

end Line

def lines : List Char → List Line
  | [] => [⟨[], [], []⟩]
  | '\r' :: '\n' :: cs => ⟨[], [], ['\r', '\n']⟩ :: lines cs
  | c :: cs => if isBreak c then ⟨[], [], [c]⟩ :: lines cs else (lines cs).modifyHead (.cons c)

theorem exists_lines (cs : List Char) : ∃ l ls, lines cs = l :: ls := by
  fun_induction lines cs with
  | case1 | case2 | case3 => exact ⟨_, _, rfl⟩
  | case4 c cs _ _ ih =>
    obtain ⟨l, ls, h⟩ := ih
    exact ⟨l.cons c, ls, by rw [h]; rfl⟩

structure Line.Formed (l : Line) : Prop where
  indent : ∀ c ∈ l.indent, isIndent c = true
  body : ∀ c ∈ l.body, isBreak c = false
  head : ∀ c ∈ l.body.head?, isIndent c = false
  ending : l.ending ∈ [[], ['\n'], ['\r', '\n'], ['\r']]

theorem not_isBreak_of_isIndent (h : isIndent c = true) : isBreak c = false := by
  simp only [isIndent, Bool.or_eq_true, beq_iff_eq] at h
  rcases h with rfl | rfl <;> rfl

theorem Line.Formed.cons (h : l.Formed) (hc : isBreak c = false) :
    (l.cons c).Formed := by
  unfold Line.cons
  split
  · rename_i hi
    exact ⟨List.forall_mem_cons.2 ⟨hi, h.indent⟩, h.body, h.head, h.ending⟩
  · rename_i hi
    refine ⟨by simp, List.forall_mem_cons.2 ⟨hc, fun d hd => ?_⟩, by simpa using hi, h.ending⟩
    rcases List.mem_append.1 hd with hd | hd
    · exact not_isBreak_of_isIndent (h.indent d hd)
    · exact h.body d hd

theorem formed_of_mem_lines (h : l ∈ lines cs) : l.Formed := by
  have hbare : ∀ e ∈ [[], ['\n'], ['\r', '\n'], ['\r']], Line.Formed ⟨[], [], e⟩ :=
    fun e he => ⟨by simp, by simp, by simp, he⟩
  fun_induction lines cs generalizing l with
  | case1 => exact List.mem_singleton.1 h ▸ hbare [] (by simp)
  | case2 cs ih =>
    rcases List.mem_cons.1 h with rfl | h
    · exact hbare _ (by simp)
    · exact ih h
  | case3 c cs _ hb ih =>
    rcases List.mem_cons.1 h with rfl | h
    · rcases Scan.break_cases hb with rfl | rfl <;> exact hbare _ (by simp)
    · exact ih h
  | case4 c cs _ hb ih =>
    obtain ⟨l', ls, hl⟩ := exists_lines cs
    rw [hl] at ih h
    rcases List.mem_cons.1 h with rfl | h
    · exact (ih List.mem_cons_self).cons (by simpa using hb)
    · exact ih (List.mem_cons_of_mem _ h)

/-! ## The lines of a dedented text -/

section Dedent

variable (r : Ruler) (n : Nat)

/-- Where taking indentation away stands behind a line: a lone carriage return starts none. -/
def Line.next (l : Line) : Option Nat := if l.ending = ['\r'] then none else some 0

def dedentLines : Option Nat → List Line → List Line
  | _, [] => []
  | k, l :: ls => { l with indent := dedent r n k l.indent } :: dedentLines l.next ls

variable {r n}

theorem dedent_none_of_not_mem (h : '\n' ∉ cs) : dedent r n none cs = cs := by
  induction cs with
  | nil => rfl
  | cons c cs ih =>
    obtain ⟨hc, hcs⟩ := not_or.1 (mt List.mem_cons.2 h)
    rw [dedent, if_neg (by simpa using Ne.symm hc), ih hcs]

/-- A character that is not cut stays, and what is behind it goes on as behind any character. -/
theorem dedent_cons_of_kept {k : Option Nat} (cs : List Char)
    (h : ∀ column, k = some column → ¬ (column < n ∧ isIndent c = true)) :
    dedent r n k (c :: cs) = c :: dedent r n (Scan.behind c) cs := by
  cases k with
  | none => rfl
  | some column =>
    have hkept := h column rfl
    rw [dedent, if_neg (by simpa [isIndent] using hkept)]
    rfl

theorem not_isIndent_of_isBreak (h : isBreak c = true) : isIndent c = false := by
  rcases Scan.break_cases h with rfl | rfl <;> rfl

theorem Line.Formed.dedent_indent (h : l.Formed) : dedent r n none l.indent = l.indent :=
  dedent_none_of_not_mem fun hmem => absurd (h.indent _ hmem) (by decide)

/-- The first character of a text is kept behind a lone carriage return. -/
theorem head_dedent_none (cs : List Char) : (dedent r n none cs).head? = cs.head? := by
  cases cs <;> rfl

theorem lines_return (h : ∀ cs', cs ≠ '\n' :: cs') :
    lines ('\r' :: cs) = ⟨[], [], ['\r']⟩ :: lines cs := by
  rw [lines, if_pos (by rfl)]
  rintro cs' - rfl
  exact h cs' rfl

/-- Putting a character before a text whose first line is dedented. -/
theorem dedentLines_cons {k : Option Nat} (ls : List Line) (hl : l.Formed)
    (h : ∀ column, k = some column → ¬ (column < n ∧ isIndent c = true)) (hc : isBreak c = false) :
    dedentLines r n k (l.cons c :: ls) = (dedentLines r n none (l :: ls)).modifyHead (.cons c) := by
  have hbehind : Scan.behind c = none := Scan.behind_of_not_break (by simp [hc])
  simp only [dedentLines, List.modifyHead_cons, Line.cons, hl.dedent_indent]
  split
  · rw [dedent_cons_of_kept _ h, hbehind, hl.dedent_indent]
    rfl
  · cases k <;> rfl

/-- The lines of a dedented text are the lines of the text, each with its indentation cut, but for
those behind a lone carriage return. -/
theorem lines_dedent (k : Option Nat) (cs : List Char) :
    lines (dedent r n k cs) = dedentLines r n k (lines cs) := by
  fun_induction lines cs generalizing k with
  | case1 => cases k <;> rfl
  | case2 cs ih =>
    rw [dedent_cons_of_kept _ (by simp [isIndent]), dedent_cons_of_kept _ (by simp [isIndent]),
      show Scan.behind '\n' = some 0 from rfl, lines, ih, dedentLines]
    cases k <;> rfl
  | case3 c cs hpair hb ih =>
    have hkept : dedent r n k (c :: cs) = c :: dedent r n (Scan.behind c) cs :=
      dedent_cons_of_kept cs (by simp [not_isIndent_of_isBreak hb])
    have hnil : dedent r n k [] = [] := by cases k <;> rfl
    rw [hkept, dedentLines, hnil]
    rcases Scan.break_cases hb with rfl | rfl
    · rw [lines, if_pos (by rfl), ih]
      · rfl
      · rintro _ ⟨⟩
    -- Behind a lone `\r` nothing is taken away, so no `\n` comes to stand behind it.
    · have hsingle : ∀ cs', dedent r n none cs ≠ '\n' :: cs' := by
        intro cs' hcs'
        have hhead := head_dedent_none (r := r) (n := n) cs
        rw [hcs'] at hhead
        obtain ⟨rest, rfl⟩ := List.head?_eq_some_iff.1 hhead.symm
        exact hpair rest rfl rfl
      rw [show Scan.behind '\r' = none from rfl, lines_return hsingle, ih]
      rfl
  | case4 c cs hpair hb ih =>
    obtain ⟨l, ls, hl⟩ := exists_lines cs
    have hmem : l ∈ lines cs := by simp [hl]
    have hformed : l.Formed := formed_of_mem_lines hmem
    have hbreak : isBreak c = false := by simpa using hb
    have hput : ∀ xs, lines (c :: xs) = (lines xs).modifyHead (.cons c) := by
      intro xs
      rw [lines, if_neg hb]
      rintro _ rfl -
      exact hb rfl
    rw [hl, List.modifyHead_cons]
    -- A character that is cut goes to the indentation of the line behind it, and is cut there too.
    by_cases hcut : ∃ column, k = some column ∧ column < n ∧ isIndent c = true
    · obtain ⟨column, rfl, hlt, hi⟩ := hcut
      have hdrop : ∀ xs, dedent r n (some column) (c :: xs)
          = dedent r n
            (some (if c == '\t' then (column / r.tab + 1) * r.tab else column + 1)) xs := by
        intro xs
        rw [dedent, if_pos (by simpa [hlt, isIndent] using hi)]
      rw [hdrop, ih, hl]
      simp only [dedentLines, Line.cons, if_pos hi, hdrop]
      rfl
    · have hkept : ∀ column, k = some column → ¬ (column < n ∧ isIndent c = true) :=
        fun column hk hlt => hcut ⟨column, hk, hlt⟩
      rw [dedent_cons_of_kept cs hkept, Scan.behind_of_not_break hb, hput, ih, hl,
        dedentLines_cons ls hformed hkept hbreak]

/-! ## One line and another -/

/-- Whether line `i` of a text is one that is cut: it starts behind a line feed, or it is the first
and starts a line of the output. -/
def Starts (atStart : Prop) (ls : List Line) : Nat → Prop
  | 0 => atStart
  | i + 1 => ∃ l, ls[i]? = some l ∧ l.ending ≠ ['\r']

theorem getElem?_dedentLines {k : Option Nat} {ls : List Line} {i : Nat} (h : ls[i]? = some l) :
    (Starts (k = some 0) ls i → (dedentLines r n k ls)[i]?
      = some { l with indent := dedent r n (some 0) l.indent }) ∧
    ((k = some 0 ∨ k = none) → ¬ Starts (k = some 0) ls i →
      (dedentLines r n k ls)[i]? = some { l with indent := dedent r n none l.indent }) := by
  induction ls generalizing k i with
  | nil => simp at h
  | cons l₀ ls ih =>
    cases i with
    | zero =>
      obtain rfl : l₀ = l := by simpa using h
      refine ⟨?_, ?_⟩
      · rintro rfl
        rfl
      · rintro (rfl | rfl) hnot
        · exact absurd rfl hnot
        · rfl
    | succ i =>
      rw [List.getElem?_cons_succ] at h
      have hnext : l₀.next = some 0 ↔ l₀.ending ≠ ['\r'] := by simp [Line.next]
      have hcases : l₀.next = some 0 ∨ l₀.next = none := by
        unfold Line.next
        split
        · exact .inr rfl
        · exact .inl rfl
      have hstarts : Starts (l₀.next = some 0) ls i ↔ Starts (k = some 0) (l₀ :: ls) (i + 1) := by
        cases i with
        | zero => simp [Starts, hnext]
        | succ i => simp [Starts]
      rw [dedentLines, List.getElem?_cons_succ, ← hstarts]
      exact ⟨(ih h).1, fun _ => (ih h).2 hcases⟩

theorem length_dedentLines (k : Option Nat) (ls : List Line) :
    (dedentLines r n k ls).length = ls.length := by
  induction ls generalizing k with
  | nil => rfl
  | cons l ls ih => rw [dedentLines, List.length_cons, List.length_cons, ih]

end Dedent

/-! ## Columns -/

namespace Ruler

def Plain (r : Ruler) : Prop := r.width ' ' = 1

variable {r : Ruler}

theorem across_append (column : Nat) (a b : List Char) :
    r.across column (a ++ b) = r.across (r.across column a) b := List.foldl_append

theorem lt_nextStop (column : Nat) : column < (column / r.tab + 1) * r.tab := by
  have h := Nat.div_add_mod column r.tab
  have hlt := Nat.mod_lt column r.tab_pos
  rw [Nat.add_mul, Nat.one_mul, Nat.mul_comm]
  omega

theorem advance_of_isIndent (hr : r.Plain) (hc : isIndent c = true) (column : Nat) :
    r.advance column c = if c == '\t' then (column / r.tab + 1) * r.tab else column + 1 := by
  simp only [isIndent, Bool.or_eq_true, beq_iff_eq] at hc
  rcases hc with rfl | rfl
  · show column + r.width ' ' = column + 1
    rw [hr]
  · rfl

theorem lt_advance (hr : r.Plain) (hc : isIndent c = true) (column : Nat) :
    column < r.advance column c := by
  rw [advance_of_isIndent hr hc]
  split
  · exact lt_nextStop column
  · omega

theorem le_across (hr : r.Plain) (h : ∀ c ∈ cs, isIndent c = true) (column : Nat) :
    column + cs.length ≤ r.across column cs := by
  induction cs generalizing column with
  | nil => exact Nat.le_refl _
  | cons c cs ih =>
    obtain ⟨hc, hcs⟩ := List.forall_mem_cons.1 h
    have hstep := lt_advance hr hc column
    have hrest := ih hcs (r.advance column c)
    rw [List.length_cons]
    show _ ≤ r.across (r.advance column c) cs
    omega

/-- Shifted by whole tab stops, indentation goes as far as before. -/
theorem across_add_of_dvd (hr : r.Plain) {m : Nat} (hm : r.tab ∣ m)
    (h : ∀ c ∈ cs, isIndent c = true) (column : Nat) :
    r.across (m + column) cs = m + r.across column cs := by
  induction cs generalizing column with
  | nil => rfl
  | cons c cs ih =>
    obtain ⟨hc, hcs⟩ := List.forall_mem_cons.1 h
    have hstep : r.advance (m + column) c = m + r.advance column c := by
      rw [advance_of_isIndent hr hc, advance_of_isIndent hr hc]
      split
      · obtain ⟨q, rfl⟩ := hm
        rw [Nat.mul_add_div r.tab_pos, Nat.add_assoc, Nat.add_mul, Nat.mul_comm q]
      · omega
    show r.across (r.advance (m + column) c) cs = m + r.across (r.advance column c) cs
    rw [hstep, ih hcs]

theorem across_of_no_tab (hr : r.Plain) (h : ∀ c ∈ cs, isIndent c = true) (hcs : '\t' ∉ cs)
    (column : Nat) : r.across column cs = column + cs.length := by
  induction cs generalizing column with
  | nil => rfl
  | cons c cs ih =>
    obtain ⟨hc, hrest⟩ := List.forall_mem_cons.1 h
    obtain ⟨hne, hnot⟩ := not_or.1 (mt List.mem_cons.2 hcs)
    have hstep : r.advance column c = column + 1 := by
      rw [advance_of_isIndent hr hc, if_neg (by simpa using Ne.symm hne)]
    show r.across (r.advance column c) cs = _
    rw [hstep, ih hrest hnot, List.length_cons]
    omega

/-- Behind a tab the column is one of the tab stops. -/
theorem dvd_advance_tab (column : Nat) : r.tab ∣ r.advance column '\t' := Nat.dvd_mul_left _ _

/-- Indentation that starts `m` columns further on ends `m` columns further on just if it has no
tab or `m` columns are whole tab stops. -/
theorem across_eq_add_iff (hr : r.Plain) {m : Nat} (h : ∀ c ∈ cs, isIndent c = true) (column : Nat) :
    r.across (m + column) cs = m + r.across column cs ↔ '\t' ∉ cs ∨ r.tab ∣ m := by
  constructor
  · intro heq
    by_cases hm : r.tab ∣ m
    · exact .inr hm
    refine .inl fun hmem => hm ?_
    -- Behind its first tab both columns are tab stops, and so is what lies between them.
    obtain ⟨a, b, rfl⟩ := List.append_of_mem hmem
    have hb : ∀ c ∈ b, isIndent c = true := fun c hc => h c (by simp [hc])
    rw [across_append, across_append] at heq
    have hfar := dvd_advance_tab (r := r) (r.across (m + column) a)
    have hnear := dvd_advance_tab (r := r) (r.across column a)
    have hsum : ∀ x, r.across x ('\t' :: b) = r.advance x '\t' + r.across 0 b := by
      intro x
      have := across_add_of_dvd hr (dvd_advance_tab (r := r) x) hb 0
      simpa [across] using this
    rw [hsum, hsum] at heq
    have hadd : r.advance (r.across (m + column) a) '\t'
        = m + r.advance (r.across column a) '\t' := by omega
    rw [hadd] at hfar
    exact (Nat.dvd_add_left hnear).1 hfar
  · rintro (hnot | hm)
    · rw [across_of_no_tab hr h hnot, across_of_no_tab hr h hnot, Nat.add_assoc]
    · exact across_add_of_dvd hr hm h column

end Ruler

/-! ## The cut -/

section Cut

variable {r : Ruler} {n : Nat}

/-- The fewest characters of an indentation that reach column `n`, or all of it. -/
structure Cuts (r : Ruler) (n column : Nat) (a b : List Char) : Prop where
  before : ∀ x y, a = x ++ y → y ≠ [] → r.across column x < n
  reached : b ≠ [] → n ≤ r.across column a

/-- From indentation the fewest characters that reach the width are taken. -/
theorem cuts_dedent (hr : r.Plain) (h : ∀ c ∈ cs, isIndent c = true) (column : Nat) :
    ∃ a, cs = a ++ dedent r n (some column) cs ∧
      Cuts r n column a (dedent r n (some column) cs) := by
  induction cs generalizing column with
  | nil => exact ⟨[], rfl, by simp, by simp [dedent]⟩
  | cons c cs ih =>
    obtain ⟨hc, hcs⟩ := List.forall_mem_cons.1 h
    by_cases hlt : column < n
    · have hdrop : dedent r n (some column) (c :: cs)
          = dedent r n (some (r.advance column c)) cs := by
        rw [dedent, if_pos (by simpa [hlt, isIndent] using hc), r.advance_of_isIndent hr hc]
      obtain ⟨a, ha, hcuts⟩ := ih hcs (r.advance column c)
      rw [hdrop]
      refine ⟨c :: a, congrArg (c :: ·) ha, ?_, hcuts.reached⟩
      intro x y hxy hy
      cases x with
      | nil => exact hlt
      | cons d x =>
        obtain ⟨rfl, rfl⟩ := List.cons.inj hxy
        exact hcuts.before x y rfl hy
    · have hkept : dedent r n (some column) (c :: cs) = c :: cs := by
        rw [dedent_cons_of_kept cs (by rintro _ ⟨⟩ ⟨h, -⟩; exact hlt h),
          Scan.behind_of_not_break (by simp [not_isBreak_of_isIndent hc]),
          dedent_none_of_not_mem fun hmem => absurd (hcs _ hmem) (by decide)]
      rw [hkept]
      exact ⟨[], rfl, by simp, fun _ => Nat.le_of_not_lt hlt⟩

/-- Where a cut does not end at the width it ends behind a tab. -/
theorem Cuts.dvd_of_lt (hr : r.Plain) {a b : List Char} (ha : ∀ c ∈ a, isIndent c = true)
    (h : Cuts r n 0 a b) (hlt : n < r.across 0 a) : r.tab ∣ r.across 0 a := by
  obtain rfl | ⟨x, c, rfl⟩ := a.eq_nil_or_concat'
  · exact absurd hlt (Nat.not_lt_zero n)
  · have hx := h.before x [c] rfl (by simp)
    have hc : isIndent c = true := ha c (by simp)
    rw [Ruler.across_append] at hlt ⊢
    simp only [isIndent, Bool.or_eq_true, beq_iff_eq] at hc
    rcases hc with rfl | rfl
    · exfalso
      have hblank : r.across (r.across 0 x) [' '] = r.across 0 x + 1 := by
        show r.across 0 x + r.width ' ' = _
        rw [hr]
      omega
    · exact r.dvd_advance_tab _

/-- A cut line is left with its columns less the width just if it has no more of them, or a
character ends at the width and no tab behind it comes to stand on other stops. -/
theorem column_cut_iff (hr : r.Plain) {a b : List Char} (ha : ∀ c ∈ a, isIndent c = true)
    (hb : ∀ c ∈ b, isIndent c = true) (h : Cuts r n 0 a b) :
    r.across 0 b = r.across 0 (a ++ b) - n ↔
      r.across 0 (a ++ b) ≤ n ∨
        ∃ x y, a ++ b = x ++ y ∧ r.across 0 x = n ∧ ('\t' ∉ y ∨ r.tab ∣ n) := by
  have hmono := r.le_across hr hb (r.across 0 a)
  -- A stretch of the indentation that ends at the width is the one that is cut.
  have hunique : ∀ x y, a ++ b = x ++ y → r.across 0 x = n → n ≤ r.across 0 a → x = a ∧ y = b := by
    intro x y hxy hx hn
    rcases List.append_eq_append_iff.1 hxy with ⟨z, rfl, rfl⟩ | ⟨z, rfl, rfl⟩
    · have hindent : ∀ c ∈ z, isIndent c = true := fun c hc => hb c (by simp [hc])
      have hz := r.le_across hr hindent (r.across 0 a)
      rw [Ruler.across_append] at hx
      have : z = [] := List.eq_nil_of_length_eq_zero (by omega)
      simp [this]
    · by_cases hz : z = []
      · simp [hz]
      · have := h.before x z rfl hz
        omega
  rw [Ruler.across_append] at *
  rcases Nat.lt_trichotomy (r.across 0 a) n with hlt | heq | hgt
  · have hnil : b = [] := by
      by_contra hne
      have := h.reached hne
      omega
    subst hnil
    constructor
    · intro _
      exact .inl (Nat.le_of_lt hlt)
    · intro _
      show 0 = r.across 0 a - n
      omega
  · have hshift := r.across_eq_add_iff hr (m := n) hb 0
    rw [Nat.add_zero] at hshift
    rw [heq] at hmono ⊢
    constructor
    · intro hcut
      have hsum : r.across n b = n + r.across 0 b := by omega
      exact .inr ⟨a, b, rfl, heq, hshift.1 hsum⟩
    · rintro (hle | ⟨x, y, hxy, hx, hy⟩)
      · have : b = [] := List.eq_nil_of_length_eq_zero (by omega)
        subst this
        show 0 = n - n
        omega
      · obtain ⟨rfl, rfl⟩ := hunique x y hxy hx (Nat.le_of_eq heq.symm)
        have := hshift.2 hy
        omega
  · -- The last tab that was taken reaches past the width, and takes more than it should.
    have hdvd := h.dvd_of_lt hr ha hgt
    have hsum := r.across_add_of_dvd hr hdvd hb 0
    rw [Nat.add_zero] at hsum
    constructor
    · intro hcut
      omega
    · rintro (hle | ⟨x, y, hxy, hx, -⟩)
      · omega
      · obtain ⟨rfl, -⟩ := hunique x y hxy hx (Nat.le_of_lt hgt)
        omega

end Cut

theorem plain_standard (tab : Nat) : (Ruler.standard tab).Plain := by
  show terminalWidth ' ' = 1
  decide

end Transcribe.Text

namespace Transcribe

open Text (Line lines dedent Starts Cuts Ruler)

/-! ## Copied space -/

/-- What a pen makes of the lines of the space it copies, with the width it is to take away. It
changes nothing but indentation, and that only on lines that start behind a line feed and on the
first where the output starts a line. There it takes the fewest characters that reach the width,
so the columns left are the columns there were less the width if there are no more of them, or if
a character ends at the width and no tab behind it comes to stand on other stops; and otherwise
they are not. -/
theorem lines_dedented (j : Job) (p : Pen) (cs : List Char) :
    let copied := lines (dedent j.ruler p.dedent (if p.sink.column = 0 then some 0 else none) cs)
    copied.length = (lines cs).length ∧
      ∀ i l, (lines cs)[i]? = some l → ∃ l', copied[i]? = some l' ∧
        l'.body = l.body ∧ l'.ending = l.ending ∧
        (¬ Starts (p.sink.column = 0) (lines cs) i → l'.indent = l.indent) ∧
        (Starts (p.sink.column = 0) (lines cs) i →
          (∃ a, l.indent = a ++ l'.indent ∧ Cuts j.ruler p.dedent 0 a l'.indent) ∧
          (l'.column j.ruler = l.column j.ruler - p.dedent ↔
            l.column j.ruler ≤ p.dedent ∨
              ∃ x y, l.indent = x ++ y ∧ j.ruler.across 0 x = p.dedent ∧
                ('\t' ∉ y ∨ j.ruler.tab ∣ p.dedent))) := by
  intro copied
  have hcopied : copied = Text.dedentLines j.ruler p.dedent
      (if p.sink.column = 0 then some 0 else none) (lines cs) := Text.lines_dedent _ cs
  refine ⟨by rw [hcopied, Text.length_dedentLines], fun i l hl => ?_⟩
  have hformed := Text.formed_of_mem_lines (List.mem_of_getElem? hl)
  have hplain : j.ruler.Plain := Text.plain_standard _
  have hstate : ((if p.sink.column = 0 then some 0 else none) = some 0) = (p.sink.column = 0) := by
    simp
  obtain ⟨hcut, hkept⟩ := Text.getElem?_dedentLines (r := j.ruler) (n := p.dedent)
    (k := if p.sink.column = 0 then some 0 else none) hl
  rw [hstate] at hcut hkept
  rw [hcopied]
  by_cases hstarts : Starts (p.sink.column = 0) (lines cs) i
  · obtain ⟨a, ha, hcuts⟩ := Text.cuts_dedent (n := p.dedent) hplain hformed.indent 0
    have hblank := hformed.indent
    rw [ha] at hblank
    have hiff := Text.column_cut_iff hplain (fun c hc => hblank c (List.mem_append_left _ hc))
      (fun c hc => hblank c (List.mem_append_right _ hc)) hcuts
    rw [← ha] at hiff
    exact ⟨_, hcut hstarts, rfl, rfl, fun hnot => absurd hstarts hnot,
      fun _ => ⟨⟨a, ha, hcuts⟩, hiff⟩⟩
  · refine ⟨_, hkept ?_ hstarts, rfl, rfl, fun _ => hformed.dedent_indent,
      fun h => absurd h hstarts⟩
    by_cases h : p.sink.column = 0
    · exact .inl h
    · exact .inr (if_neg h)

def marginJob : Job := ⟨.ofString "A.java" "", .cpp⟩

def marginPen : Pen := { marginJob.pen with dedent := 4 }

theorem lines_dedented_comment :
    (lines "\n\t  // x".toList)[1]? = some ⟨['\t', ' ', ' '], "// x".toList, []⟩ ∧
      Starts (marginPen.sink.column = 0) (lines "\n\t  // x".toList) 1 ∧
      ∃ l', (lines (dedent marginJob.ruler marginPen.dedent (some 0) "\n\t  // x".toList))[1]?
          = some l' ∧ l'.body = "// x".toList ∧ l'.column marginJob.ruler = 6 - 4 := by
  have hline : (lines "\n\t  // x".toList)[1]? = some ⟨['\t', ' ', ' '], "// x".toList, []⟩ := by
    decide
  have hstarts : Starts (marginPen.sink.column = 0) (lines "\n\t  // x".toList) 1 :=
    ⟨⟨[], [], ['\n']⟩, by decide, by decide⟩
  obtain ⟨l', hl', hbody, -, -, hcut⟩ :=
    (lines_dedented marginJob marginPen "\n\t  // x".toList).2 1 _ hline
  have hcolumn := (hcut hstarts).2.2
    (.inr ⟨['\t'], [' ', ' '], rfl, by decide, .inl (by decide)⟩)
  exact ⟨hline, hstarts, l', hl', hbody, hcolumn.trans (by decide)⟩

/-- Neither behind a lone carriage return nor under a tab that reaches past the width is a line
left with its columns less the width. -/
theorem column_ne_of_return_or_tab :
    (∃ l l', (lines "\r        x".toList)[1]? = some l ∧
      (lines (dedent marginJob.ruler marginPen.dedent (some 0) "\r        x".toList))[1]?
        = some l' ∧
      l.column marginJob.ruler = 8 ∧ l'.column marginJob.ruler = 8) ∧
    ∃ l l', (lines "\n\tx".toList)[1]? = some l ∧
      (lines (dedent (Ruler.standard 8) 4 (some 0) "\n\tx".toList))[1]? = some l' ∧
      l.column (Ruler.standard 8) = 8 ∧ l'.column (Ruler.standard 8) = 0 :=
  ⟨⟨⟨List.replicate 8 ' ', ['x'], []⟩, ⟨List.replicate 8 ' ', ['x'], []⟩, by decide⟩,
    ⟨⟨['\t'], ['x'], []⟩, ⟨[], ['x'], []⟩, by decide⟩⟩

end Transcribe
