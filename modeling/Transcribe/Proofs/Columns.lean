/-
  Transcribe.Proofs.Columns — where text stands on its line, in the source and in the output.

  The output counts its column as it goes and starts again at every line break; the source finds
  the start of a line in a table and measures from there. Both come to the same column wherever a
  line can be cut. A tab that is written as blanks ends at the stop the tab would have ended at, so
  expanding tabs moves nothing that follows them.

  Expanding is compared with a job that is the same but copies tabs as they are (`Job.verbatim`):
  at every place of a copied text the two outputs are at the same column. A blank has to be one
  column wide for that, and the stops of the output have to be those of the ruler.
  - `foldl_write`: a text may be written in any pieces.
  - `column?_eq_through`: the column in the source is the column behind all text before.
  - `written_column`: the same of an output that is written in pieces.
  - `columns_writeExpanded_iff`: tabs as blanks end where tabs end if a blank is one column wide.
  - `expanded_columns`: the same of the space that a pen copies.
-/

import Transcribe.Proofs.Indent
import Transcribe.Proofs.Lines

namespace Transcribe.Text

/-! ## Text in pieces -/

namespace Ruler

variable (r : Ruler)

@[simp] theorem through_nil (column : Nat) : r.through column [] = column := rfl

@[simp] theorem through_cons (column : Nat) (c : Char) (cs : List Char) :
    r.through column (c :: cs) = r.through (r.step column c) cs := rfl

theorem through_append (column : Nat) (a b : List Char) :
    r.through column (a ++ b) = r.through (r.through column a) b := List.foldl_append

/-- Inside a line the column goes on from character to character. -/
theorem through_eq_across {cs : List Char} (h : ∀ c ∈ cs, isBreak c = false) (column : Nat) :
    r.through column cs = r.across column cs := by
  induction cs generalizing column with
  | nil => rfl
  | cons c cs ih =>
    obtain ⟨hc, hcs⟩ := List.forall_mem_cons.1 h
    have hstep : r.step column c = r.advance column c := by simp [step, hc]
    rw [through_cons, hstep, ih hcs]
    rfl

/-- Behind a line break a line starts. -/
theorem through_of_getLast? {cs : List Char} (h : ∀ c ∈ cs.getLast?, isBreak c = true) :
    r.through 0 cs = 0 := by
  cases hlast : cs.getLast? with
  | none =>
    rw [List.getLast?_eq_none_iff.1 hlast]
    rfl
  | some c =>
    obtain ⟨a, rfl⟩ := List.getLast?_eq_some_iff.1 hlast
    rw [through_append, through_cons, through_nil, step, if_pos (h c hlast)]

end Ruler

theorem Sink.foldl_write (k : Sink) (parts : List String) :
    parts.foldl Sink.write k = k.write (String.join parts) := by
  induction parts generalizing k with
  | nil => exact (Sink.write_nil k).symm
  | cons t parts ih => rw [List.foldl_cons, ih, Sink.write_write, String.join_cons]

/-! ## Columns of the source -/

namespace Source

variable {s : Source} {o : Nat}

/-- The column that is measured from the start of a line is the column behind all text before the
offset. -/
theorem column?_eq_through (r : Ruler) {u v : List Char} (hcs : s.chars = u ++ v)
    (hcut : ¬ s.CutsBreak (byteLength u)) :
    s.column? r (byteLength u) = some (r.through 0 u) := by
  have hbound : s.Boundary (byteLength u) := ⟨v, rest?_eq_some_iff.2 ⟨u, hcs, rfl⟩⟩
  obtain ⟨a, l, m, b, hcs', ho, hline, ha, -, hstart, -⟩ := exists_line hbound hcut
  rw [hcs, ← List.append_assoc] at hcs'
  obtain ⟨rfl, rfl⟩ := append_inj_of_byteLength hcs' (by rw [ho, byteLength_append])
  have hmin : min (byteLength (a ++ l)) s.size = byteLength (a ++ l) :=
    Nat.min_eq_left (le_size hbound)
  have hslice : s.slice? ⟨s.lineStart (byteLength (a ++ l)), byteLength (a ++ l)⟩ = some l := by
    apply slice?_eq_some (r := m ++ b)
    · exact rest?_eq_some_iff.2 ⟨a, by rw [hcs, List.append_assoc], hstart⟩
    · omega
  have hl : ∀ c ∈ l, isBreak c = false := fun c hc => hline c (List.mem_append_left m hc)
  rw [column?, hmin, hslice, Option.map_some, r.through_append, r.through_of_getLast? ha,
    r.through_eq_across hl]

/-- The column of an offset in the source is the column an output comes to when the text before the
offset is written, in whatever pieces. -/
theorem written_column (s : Source) (r : Ruler) (o : Nat) (h : s.Boundary o)
    (hcut : ¬ s.CutsBreak o) :
    ∃ before, s.slice? ⟨0, o⟩ = some before ∧ ∀ parts : List String,
      String.join parts = String.ofList before →
        s.column? r o = some (parts.foldl Sink.write (Sink.empty r)).column := by
  obtain ⟨v, hv⟩ := h
  obtain ⟨u, hcs, rfl⟩ := rest?_eq_some_iff.1 hv
  refine ⟨u, slice?_eq_some (r := v) ?_ (Nat.zero_add _).symm, ?_⟩
  · rw [rest?, hcs, dropBytes?_zero]
  · intro parts hparts
    rw [column?_eq_through r hcs hcut, Sink.foldl_write, hparts, Sink.write_column,
      String.toList_ofList]
    rfl

/-- Behind a character of two bytes in the second line, with the terminator before it cut by two
writes. -/
theorem written_column_broken :
    brokenText.Boundary 5 ∧ ¬ brokenText.CutsBreak 5 ∧
      String.join ["a\r", "\né"] = String.ofList ['a', '\r', '\n', 'é'] ∧
      brokenText.column? (Ruler.standard 4) 5
        = some ((["a\r", "\né"].foldl Sink.write (Sink.empty (Ruler.standard 4))).column) := by
  obtain ⟨before, hslice, hcolumn⟩ := written_column brokenText (Ruler.standard 4) 5
    boundary_broken not_cutsBreak_broken
  have hjoin : String.join ["a\r", "\né"] = String.ofList ['a', '\r', '\n', 'é'] := by decide
  rw [show brokenText.slice? ⟨0, 5⟩ = some ['a', '\r', '\n', 'é'] by decide] at hslice
  exact ⟨boundary_broken, not_cutsBreak_broken, hjoin,
    hcolumn _ (hjoin.trans (by rw [Option.some.inj hslice]))⟩

end Source

/-! ## Tabs as blanks -/

namespace Ruler

variable (r : Ruler)

theorem through_blanks (column n : Nat) :
    r.through column (List.replicate n ' ') = column + n * r.width ' ' := by
  induction n generalizing column with
  | zero => simp
  | succ n ih =>
    have hstep : r.step column ' ' = column + r.width ' ' := rfl
    rw [List.replicate_succ, through_cons, hstep, ih, Nat.add_mul, Nat.one_mul]
    omega

/-- A tab goes as many columns as are left to the next stop. -/
theorem step_tab (column : Nat) : r.step column '\t' = column + (r.tab - column % r.tab) := by
  have hdiv := Nat.div_add_mod column r.tab
  have hlt := Nat.mod_lt column r.tab_pos
  show (column / r.tab + 1) * r.tab = _
  rw [Nat.add_mul, Nat.one_mul, Nat.mul_comm]
  omega

end Ruler

theorem Expands.not_mem {n : Nat} {x w : List Char} (h : Expands n x w) : '\t' ∉ w := by
  induction h with
  | nil => simp
  | char hc _ ih => simpa using ⟨Ne.symm hc, ih⟩
  | tab _ _ _ ih => simpa using ih

namespace Sink

variable {k : Sink} {n : Nat}

theorem writeExpanded_append (k : Sink) (a b : List Char) :
    k.writeExpanded n (a ++ b) = (k.writeExpanded n a).writeExpanded n b := by
  induction a generalizing k with
  | nil => rfl
  | cons c a ih =>
    rw [List.cons_append, writeExpanded, writeExpanded]
    split
    · exact ih _
    · exact ih _

/-- Without a tab there is nothing to expand. -/
theorem writeExpanded_of_not_mem (k : Sink) {cs : List Char} (h : '\t' ∉ cs) :
    k.writeExpanded n cs = k.write (String.ofList cs) := by
  induction cs generalizing k with
  | nil => exact (write_nil k).symm
  | cons c cs ih =>
    simp only [List.mem_cons, not_or] at h
    rw [writeExpanded, if_neg (by simpa using Ne.symm h.1), ih _ h.2, write_write,
      ← String.ofList_append, List.singleton_append]

theorem writeSpaces_column (k : Sink) (n : Nat) :
    (k.writeSpaces n).column = k.column + n * k.ruler.width ' ' := by
  rw [writeSpaces, write_column, String.toList_ofList, Ruler.through_blanks]

/-- The blanks written for a tab end where the tab ends. -/
theorem column_writeExpanded (hplain : k.ruler.Plain) (htab : k.ruler.tab = n) (cs : List Char) :
    (k.writeExpanded n cs).column = k.ruler.through k.column cs := by
  induction cs generalizing k with
  | nil => rfl
  | cons c cs ih =>
    rw [writeExpanded, Ruler.through_cons]
    by_cases hc : c = '\t'
    · subst hc
      have hrest := ih (k := k.writeSpaces (n - k.column % n)) hplain htab
      rw [if_pos (beq_self_eq_true _), hrest, writeSpaces_column, hplain, Nat.mul_one,
        Ruler.step_tab, htab]
      rfl
    · have hrest := ih (k := k.write (String.ofList [c])) hplain htab
      rw [if_neg (by simpa using hc), hrest, write_column, String.toList_ofList]
      rfl

/-- Behind one tab the columns are the same only if a blank is one column wide. -/
theorem plain_of_column (htab : k.ruler.tab = n)
    (h : (k.writeExpanded n ['\t']).column = k.ruler.through k.column ['\t']) :
    k.ruler.Plain := by
  have hcolumn : (k.writeExpanded n ['\t']).column
      = k.column + (n - k.column % n) * k.ruler.width ' ' := writeSpaces_column k _
  have hlt := Nat.mod_lt k.column k.ruler.tab_pos
  rw [hcolumn, Ruler.through_cons, Ruler.through_nil, Ruler.step_tab, htab] at h
  rw [htab] at hlt
  apply Nat.eq_of_mul_eq_mul_left (show 0 < n - k.column % n by omega)
  omega

/-- Expanding tabs keeps every column of a text just if a blank is one column wide or there is no
tab. -/
theorem columns_writeExpanded_iff (htab : k.ruler.tab = n) (cs : List Char) :
    (∀ a b, cs = a ++ b →
        (k.writeExpanded n a).column = (k.write (String.ofList a)).column) ↔
      k.ruler.Plain ∨ '\t' ∉ cs := by
  constructor
  · intro h
    by_cases hmem : '\t' ∈ cs
    · left
      -- Up to the first tab both outputs are the same.
      obtain ⟨a, b, rfl, ha⟩ := List.eq_append_cons_of_mem hmem
      have hfirst := h (a ++ ['\t']) b (by simp)
      rw [writeExpanded_append, writeExpanded_of_not_mem k ha, String.ofList_append,
        ← write_write] at hfirst
      exact plain_of_column (k := k.write (String.ofList a)) htab
        (hfirst.trans (by rw [write_column, String.toList_ofList]))
    · exact .inr hmem
  · rintro (hplain | hnone) a b rfl
    · rw [column_writeExpanded hplain htab, write_column, String.toList_ofList]
    · rw [writeExpanded_of_not_mem k fun ha => hnone (List.mem_append_left b ha)]

end Sink

end Transcribe.Text

namespace Transcribe

open Text (Sink Expands)

def Job.verbatim (j : Job) : Job := { j with profile := { j.profile with expandTabs := false } }

section Expanded

variable {j : Job} {p : Pen}

theorem Job.verbatim_writeSpace (hdedent : p.dedent = 0) (cs : List Char) :
    j.verbatim.writeSpace cs p = p.write (String.ofList cs) := by
  simp [writeSpace, verbatim, hdedent]

theorem Job.writeSpace_of_expand (hexpand : j.profile.expandTabs = true) (hdedent : p.dedent = 0)
    (htab : p.sink.ruler.tab = j.profile.preferredIndent) (cs : List Char) :
    j.writeSpace cs p = { p with sink := p.sink.writeExpanded j.profile.preferredIndent cs } := by
  have hpos := p.sink.ruler.tab_pos
  rw [htab] at hpos
  simp only [writeSpace, hdedent, Text.dedent_zero, hexpand, if_true,
    Nat.max_eq_left (show 1 ≤ j.profile.preferredIndent from hpos)]

end Expanded

/-- Expanding tabs keeps the layout. Space is written as the same text with each tab replaced by one
blank or more, no more than the width of a tab stop. The text can be written up to any of its
characters and from there on. Each stands at the column it would stand at with the tabs copied as
they are, just if a blank is one column wide or there are no tabs; and a blank is that wide to the
ruler of every output. -/
theorem expanded_columns (j : Job) (p : Pen) (cs : List Char)
    (hexpand : j.profile.expandTabs = true) (hdedent : p.dedent = 0)
    (htab : p.sink.ruler.tab = j.profile.preferredIndent) :
    (∃ w, j.writeSpace cs p = p.write (String.ofList w) ∧ '\t' ∉ w ∧
      Expands j.profile.preferredIndent cs w) ∧
    (∀ a b, cs = a ++ b →
      j.writeSpace cs p = j.writeSpace b (j.writeSpace a p) ∧
      j.verbatim.writeSpace cs p = j.verbatim.writeSpace b (j.verbatim.writeSpace a p)) ∧
    ((∀ a b, cs = a ++ b →
        (j.writeSpace a p).sink.column = (j.verbatim.writeSpace a p).sink.column) ↔
      p.sink.ruler.Plain ∨ '\t' ∉ cs) ∧
    (p.sink.ruler = Text.Ruler.standard j.profile.preferredIndent → ∀ a b, cs = a ++ b →
      (j.writeSpace a p).sink.column = (j.verbatim.writeSpace a p).sink.column) := by
  have hpos := p.sink.ruler.tab_pos
  rw [htab] at hpos
  have hspace := Job.writeSpace_of_expand hexpand hdedent htab
  have hcolumns : (∀ a b, cs = a ++ b →
      (j.writeSpace a p).sink.column = (j.verbatim.writeSpace a p).sink.column) ↔
      p.sink.ruler.Plain ∨ '\t' ∉ cs := by
    rw [← Sink.columns_writeExpanded_iff htab]
    simp only [hspace, Job.verbatim_writeSpace hdedent, Pen.write_sink]
  refine ⟨?_, ?_, hcolumns, ?_⟩
  · obtain ⟨w, hw, hk⟩ := Text.exists_expands hpos p.sink cs
    exact ⟨w, by rw [hspace, hk]; rfl, hw.not_mem, hw⟩
  · rintro a b rfl
    constructor
    · obtain ⟨w, -, hk⟩ := Text.exists_expands hpos p.sink a
      have hafter : (j.writeSpace a p).sink.ruler.tab = j.profile.preferredIndent := by
        rw [hspace, hk]
        exact htab
      rw [Job.writeSpace_of_expand (p := j.writeSpace a p) hexpand (by rw [hspace]; exact hdedent)
        hafter, hspace, hspace, Sink.writeExpanded_append]
    · rw [Job.verbatim_writeSpace hdedent, Job.verbatim_writeSpace hdedent,
        Job.verbatim_writeSpace (p := p.write _) hdedent, String.ofList_append]
      simp only [Pen.write, Sink.write_write]
  · intro hruler
    apply hcolumns.2
    left
    rw [hruler]
    exact Text.plain_standard _

def tabbedJob : Job := ⟨.ofString "A.java" "", { Target.Profile.cpp with expandTabs := true }⟩

def tabbedPen : Pen := tabbedJob.pen.write "abc"

/-- Space with a wide character between two tabs. -/
theorem expanded_columns_wide :
    tabbedJob.profile.expandTabs = true ∧ tabbedPen.dedent = 0 ∧
      tabbedPen.sink.ruler.tab = tabbedJob.profile.preferredIndent ∧
      (∃ w, tabbedJob.writeSpace "\t漢\t\n\tx".toList tabbedPen
          = tabbedPen.write (String.ofList w) ∧ '\t' ∉ w ∧ Expands 4 "\t漢\t\n\tx".toList w) ∧
      (tabbedJob.writeSpace "\t漢\t".toList tabbedPen).sink.column
        = (tabbedJob.verbatim.writeSpace "\t漢\t".toList tabbedPen).sink.column := by
  obtain ⟨htext, -, -, hcolumns⟩ := expanded_columns tabbedJob tabbedPen "\t漢\t\n\tx".toList
    rfl rfl rfl
  exact ⟨rfl, rfl, rfl, htext, hcolumns rfl "\t漢\t".toList "\n\tx".toList (by decide)⟩

end Transcribe
