/-
  Transcribe.Proofs.Keep.Basic — scripts that keep the comments of the source.

  What a pen has written since it stood at `a` holds, in order, copies of comments between `a` and
  where it stands, and its brackets of code are those of the words that were written. A script keeps
  this up if the pass is in code wherever the script writes text of its own, and if text it copies
  is read behind what is written as it is in the source. How far the pass is from that is the stage
  the pen is at: from `code`, where any word may follow, to `loose`, where only the next character
  of the source may.

  A `Ledger` is the account of what was written: which comments of the source its comments are
  copies of (`Copied`: less some indentation and with tabs spread, where the profile asks for it),
  and, if it is strict, that none is missing but those in the regions passed over (`spared`). An
  `Entry` is how a ledger goes on. Stages are ordered by what they promise (`below`), so a script
  can be used at a better stage than it needs. Regions are compared by what they cover, so that the
  regions of a node's parts count as regions of the node.
  - `Kept`: a pen at a stage.
  - `Keeps`: a script that leads from one stage to another, and the regions it passes over.
  - `Keeps.append`, `Keeps.frame`: scripts one after the other, and the script of a node.
-/

import Transcribe.Proofs.Lead
import Transcribe.Proofs.Step
import Transcribe.Proofs.Token
import Transcribe.Script.Basic

namespace Transcribe.Text

/-! ## Regions -/

def Span.covers (r c : Span) : Bool := decide (r.start ≤ c.start) && decide (c.stop ≤ r.stop)

theorem Span.covers_iff {r c : Span} : r.covers c = true ↔ r.start ≤ c.start ∧ c.stop ≤ r.stop := by
  simp [covers]

def Covered (lost lost' : List Span) : Prop := ∀ r ∈ lost, ∃ r' ∈ lost', r'.covers r = true

theorem covered_of_subset {lost lost' : List Span} (h : ∀ r ∈ lost, r ∈ lost') :
    Covered lost lost' := fun r hr => ⟨r, h r hr, by simp [Span.covers]⟩

theorem Covered.append_left {lost lost' : List Span} (h : Covered lost lost') (ls : List Span) :
    Covered (ls ++ lost) (ls ++ lost') := by
  intro r hr
  rcases List.mem_append.1 hr with hr | hr
  · exact ⟨r, List.mem_append_left _ hr, by simp [Span.covers]⟩
  · obtain ⟨r', hr', hcovers⟩ := h r hr
    exact ⟨r', List.mem_append_right _ hr', hcovers⟩

theorem Covered.any {lost lost' : List Span} (h : Covered lost lost') {c : Span}
    (hc : lost.any (·.covers c) = true) : lost'.any (·.covers c) = true := by
  obtain ⟨r, hr, hrc⟩ := List.any_eq_true.1 hc
  obtain ⟨r', hr', hcovers⟩ := h r hr
  rw [Span.covers_iff] at hrc hcovers
  exact List.any_eq_true.2 ⟨r', hr', Span.covers_iff.2 (by omega)⟩

namespace Source

variable {s : Source} {a o o' : Nat} {lost new : List Span}

def spared (s : Source) (lost : List Span) (a o : Nat) : List Span :=
  (s.within a o).filter fun c => !lost.any (·.covers c)

theorem mem_within {x : Span} (h : x ∈ s.within a o) :
    a ≤ x.start ∧ x.start < x.stop ∧ x.stop ≤ o := by
  obtain ⟨hx, hin⟩ := List.mem_filter.1 h
  have hlt := start_lt_stop hx
  simp only [Bool.and_eq_true, decide_eq_true_eq] at hin
  exact ⟨hin.1, hlt, hin.2⟩

theorem spared_nil : s.spared [] a o = s.within a o := by
  simp [spared]

/-- Regions on both sides of a place spare the comments on their own sides. -/
theorem spared_append (h : s.OnCode o) (hao : a ≤ o) (hoo' : o ≤ o')
    (hlost : ∀ r ∈ lost, r.stop ≤ o) (hnew : ∀ r ∈ new, o ≤ r.start) :
    s.spared (lost ++ new) a o' = s.spared lost a o ++ s.spared new o o' := by
  unfold spared
  rw [h.within_append hao hoo', List.filter_append]
  congr 1
  · refine List.filter_congr fun x hx => ?_
    have hnone : new.any (·.covers x) = false := by
      rw [List.any_eq_false]
      intro r hr
      have := mem_within hx
      have := hnew r hr
      simp only [Span.covers, Bool.and_eq_true, decide_eq_true_eq]
      omega
    rw [List.any_append, hnone, Bool.or_false]
  · refine List.filter_congr fun x hx => ?_
    have hnone : lost.any (·.covers x) = false := by
      rw [List.any_eq_false]
      intro r hr
      have := mem_within hx
      have := hlost r hr
      simp only [Span.covers, Bool.and_eq_true, decide_eq_true_eq]
      omega
    rw [List.any_append, hnone, Bool.false_or]

/-- A region spares nothing of itself. -/
theorem spared_self : s.spared [⟨o, o'⟩] o o' = [] := by
  refine List.filter_eq_nil_iff.2 fun x hx => ?_
  have := mem_within hx
  simp [Span.covers, this]

end Source

end Transcribe.Text

namespace Transcribe

open Text (Span Source Sink Ruler Scan Copy byteLength isBreak isSpace)
open Text.Scan (texts finish Plain)

/-! ## Ledgers -/

/-- What is written for a comment: its text, in C++ without some indentation, and with its tabs
spread if the profile asks for it. -/
def Copied (j : Job) (c : Span) (t : List Char) : Prop :=
  ∃ v columns, j.source.slice? c = some v ∧ (columns ≠ 0 → j.profile.isCpp = true) ∧
    Copy j.profile.expandTabs (Text.dedent j.ruler columns none v) t

/-- The text `e` was written while the cursor went from `a` to `o`: its comments are copies of
comments of the source between the two, in their order. If `strict`, all are there that lie in none
of the regions. -/
structure Ledger (j : Job) (strict : Bool) (a : Nat) (lost : List Span) (o : Nat) (e : List Char) :
    Prop where
  le : a ≤ o
  lost_le : strict = true → ∀ r ∈ lost, r.stop ≤ o
  copies : ∃ ps, ps.Sublist (j.source.within a o) ∧
    (strict = true → ps = j.source.spared lost a o) ∧ List.Forall₂ (Copied j) ps (texts .code e)

structure Entry (j : Job) (strict : Bool) (new : List Span) (o o' : Nat) (w : List Char) : Prop where
  le : o ≤ o'
  region : strict = true → ∀ r ∈ new, o ≤ r.start ∧ r.stop ≤ o'
  copies : ∃ ps, ps.Sublist (j.source.within o o') ∧
    (strict = true → ps = j.source.spared new o o') ∧ List.Forall₂ (Copied j) ps (texts .code w)

theorem Ledger.extend {j : Job} {strict : Bool} {a o o' : Nat} {lost new : List Span}
    {e w : List Char} (h : Ledger j strict a lost o e) (hon : j.source.OnCode o)
    (hsettles : (finish .code e).Settles w) (hw : Entry j strict new o o' w) :
    Ledger j strict a (lost ++ new) o' (e ++ w) := by
  obtain ⟨ps, hps, hall, hcopies⟩ := h.copies
  obtain ⟨qs, hqs, hall', hcopies'⟩ := hw.copies
  refine ⟨Nat.le_trans h.le hw.le, fun hs r hr => ?_, ps ++ qs, ?_, fun hs => ?_, ?_⟩
  · rcases List.mem_append.1 hr with hr | hr
    · exact Nat.le_trans (h.lost_le hs r hr) hw.le
    · exact (hw.region hs r hr).2
  · rw [hon.within_append h.le hw.le]
    exact hps.append hqs
  · rw [Source.spared_append hon h.le hw.le (h.lost_le hs) fun r hr => (hw.region hs r hr).1,
      hall hs, hall' hs]
  · rw [Scan.texts_append hsettles]
    exact List.rel_append hcopies hcopies'

namespace Entry

variable {j : Job} {strict : Bool} {o o' : Nat} {w : List Char}

/-- Text without comments, over source without comments. -/
theorem plain (hle : o ≤ o') (hnone : j.source.within o o' = []) (hw : texts .code w = []) :
    Entry j strict [] o o' w := by
  refine ⟨hle, fun _ r hr => (by cases hr), [], List.nil_sublist _, fun _ => ?_, ?_⟩
  · rw [Source.spared_nil, hnone]
  · rw [hw]
    exact .nil

/-- Nothing is written for a region. -/
theorem region_nil (hle : o ≤ o') : Entry j strict [⟨o, o'⟩] o o' [] := by
  refine ⟨hle, fun _ r hr => ?_, [], List.nil_sublist _, fun _ => Source.spared_self.symm, .nil⟩
  obtain rfl := List.mem_singleton.1 hr
  exact ⟨Nat.le_refl _, Nat.le_refl _⟩

/-- Nothing is written where not all has to be kept. -/
theorem loss (hle : o ≤ o') (hs : strict = false) : Entry j strict [] o o' [] := by
  refine ⟨hle, fun _ r hr => (by cases hr), [], List.nil_sublist _, fun h => ?_, .nil⟩
  rw [hs] at h
  cases h

/-- All comments are copied. -/
theorem full (hle : o ≤ o')
    (h : List.Forall₂ (Copied j) (j.source.within o o') (texts .code w)) :
    Entry j strict [] o o' w :=
  ⟨hle, fun _ r hr => (by cases hr), _, List.Sublist.refl _, fun _ => Source.spared_nil.symm, h⟩

end Entry

/-! ## Stages -/

inductive Stage where
  /-- In code. -/
  | code
  /-- In code, or in a line comment at the end of the source. -/
  | ready
  /-- In code, or in a line comment where a line of the source ends. -/
  | line
  /-- In a state in which the next character of the source is read as in code. -/
  | loose
  /-- As `line`, and the space behind the node on its line may have been taken. -/
  | trail
  deriving DecidableEq

namespace Stage

def Holds (s : Source) (o : Nat) (m : Scan) : Stage → Prop
  | .code => m = .code
  | .ready => m = .code ∨ (∃ acc, m = .line acc) ∧ o = s.size
  | .line | .trail =>
    m = .code ∨ (∃ acc, m = .line acc) ∧ ∀ c r, s.rest? o = some (c :: r) → isBreak c = true
  | .loose => ∀ c r, s.rest? o = some (c :: r) → m.settles c = true

def below : Stage → Stage → Bool
  | .code, _ => true
  | .ready, k => k != .code
  | .line, k => k != .code && k != .ready
  | g, k => g == k

variable {s : Source} {o : Nat} {m : Scan} {g k : Stage}

theorem rest?_size {c : Char} {r : List Char} (ho : o = s.size) (h : s.rest? o = some (c :: r)) :
    False := by
  have hsize := Source.add_byteLength h
  have := c.utf8Size_pos
  rw [Text.byteLength_cons] at hsize
  omega

/-- At every stage the next character of the source is read as in code. -/
theorem Holds.loose (h : g.Holds s o m) {c : Char} {r : List Char}
    (hrest : s.rest? o = some (c :: r)) : m.settles c = true := by
  cases g with
  | code =>
    obtain rfl : m = .code := h
    rfl
  | ready =>
    rcases h with rfl | ⟨-, hsize⟩
    · rfl
    · exact (rest?_size hsize hrest).elim
  | line | trail =>
    rcases h with rfl | ⟨⟨acc, rfl⟩, hbreak⟩
    · rfl
    · exact hbreak c r hrest
  | loose => exact h c r hrest

theorem Holds.mono (h : g.Holds s o m) (hgk : g.below k = true) : k.Holds s o m := by
  cases k with
  | loose => exact fun c r hrest => h.loose hrest
  | code =>
    cases g with
    | code => exact h
    | ready | line | loose | trail => cases hgk
  | ready =>
    cases g with
    | code => exact .inl h
    | ready => exact h
    | line | loose | trail => cases hgk
  | line | trail =>
    cases g with
    | code => exact .inl h
    | ready =>
      exact h.imp id fun ⟨hline, hsize⟩ => ⟨hline, fun c r hr => (rest?_size hsize hr).elim⟩
    | line | trail => exact h
    | loose => cases hgk

end Stage

/-! ## Brackets -/

def Stroke.brackets : Stroke → List Char
  | .swap _ t | .write t => Scan.brackets .code t.toList
  | _ => []

namespace Script

def brackets (r : Script) : List Char := r.flatMap Stroke.brackets

@[simp] theorem brackets_nil : brackets [] = [] := rfl

@[simp] theorem brackets_cons (st : Stroke) (r : Script) :
    brackets (st :: r) = st.brackets ++ brackets r := rfl

@[simp] theorem brackets_append (r r' : Script) :
    brackets (r ++ r') = brackets r ++ brackets r' := List.flatMap_append

@[simp] theorem brackets_framed (span : Span) (r : Script) :
    brackets (framed span r) = brackets r := by
  simp [framed, Stroke.brackets]

end Script

/-! ## Pens -/

/-- A pen that has written behind `b` what it kept of the source from `a` on, with the brackets
`bs`, and stands at a stage. -/
structure Kept (j : Job) (strict : Bool) (b : List Char) (a : Nat) (lost : List Span)
    (bs : List Char) (g : Stage) (p : Pen) : Prop where
  onCode : j.source.OnCode p.position
  text : ∃ e, p.sink.text.toList = b ++ e ∧ Ledger j strict a lost p.position e ∧
    g.Holds j.source p.position (finish .code e) ∧ Scan.brackets .code e = bs
  ruler : p.sink.ruler = Ruler.standard j.profile.preferredIndent
  column : p.sink.column = p.sink.ruler.through 0 p.sink.text.toList
  dedent : p.dedent ≠ 0 → j.profile.isCpp = true
  trailing : g ≠ .trail → p.trailing = false

namespace Kept

variable {j : Job} {strict : Bool} {b : List Char} {a : Nat} {lost new : List Span}
  {bs bs' : List Char} {g k : Stage} {p q : Pen}

theorem mono (h : Kept j strict b a lost bs g p) (hgk : g.below k = true) :
    Kept j strict b a lost bs k p := by
  obtain ⟨e, he, hledger, hstage, hbs⟩ := h.text
  refine ⟨h.onCode, ⟨e, he, hledger, hstage.mono hgk, hbs⟩, h.ruler, h.column,
    h.dedent, fun hk => h.trailing ?_⟩
  rintro rfl
  cases k with
  | trail => exact hk rfl
  | code | ready | line | loose => cases hgk

/-- Before the end of the source a pen that is ready is in code. -/
theorem code_of_ready (h : Kept j strict b a lost bs .ready p) (hlt : p.position < j.source.size) :
    Kept j strict b a lost bs .code p := by
  obtain ⟨e, he, hledger, hstage, hbs⟩ := h.text
  refine ⟨h.onCode, ⟨e, he, hledger, ?_, hbs⟩, h.ruler, h.column, h.dedent,
    fun _ => h.trailing (by simp)⟩
  rcases hstage with hstage | ⟨-, hsize⟩
  · exact hstage
  · omega

/-- The pen goes on from where it stands and writes `w`. -/
theorem extend {w : List Char} (h : Kept j strict b a lost bs g p)
    (hbs : bs ++ Scan.brackets .code w = bs')
    (hsink : q.sink = p.sink.write (String.ofList w)) (hon : j.source.OnCode q.position)
    (hentry : Entry j strict new p.position q.position w)
    (hstage : ∀ e, p.sink.text.toList = b ++ e → g.Holds j.source p.position (finish .code e) →
      (finish .code e).Settles w ∧ k.Holds j.source q.position (finish .code (e ++ w)))
    (hdedent : q.dedent ≠ 0 → j.profile.isCpp = true) (htrailing : k ≠ .trail → q.trailing = false) :
    Kept j strict b a (lost ++ new) bs' k q := by
  obtain ⟨e, he, hledger, hg, rfl⟩ := h.text
  obtain ⟨hsettles, hk⟩ := hstage e he hg
  refine ⟨hon, ⟨e ++ w, ?_, hledger.extend h.onCode hsettles hentry, hk, ?_⟩, ?_, ?_, hdedent,
    htrailing⟩
  · rw [hsink, Sink.write_text, String.toList_append, he, String.toList_ofList, List.append_assoc]
  · rw [Scan.brackets_append, Scan.brackets_of_settles hsettles, hbs]
  · rw [hsink, Sink.write_ruler, h.ruler]
  · rw [hsink, Sink.write_ruler, Sink.write_column, Sink.write_text, String.toList_append,
      Ruler.through, Ruler.through, List.foldl_append, h.column]
    rfl

/-- The pen moves without writing. -/
theorem move (h : Kept j strict b a lost bs g p) (hsink : q.sink = p.sink)
    (hon : j.source.OnCode q.position) (hentry : Entry j strict new p.position q.position [])
    (hstage : ∀ m, g.Holds j.source p.position m → k.Holds j.source q.position m)
    (hdedent : q.dedent = p.dedent) (htrailing : k ≠ .trail → q.trailing = false) :
    Kept j strict b a (lost ++ new) bs k q := by
  refine h.extend (w := []) (List.append_nil bs) ?_ hon hentry
    (fun e _ hg => ⟨Scan.settles_nil _, ?_⟩) (hdedent ▸ h.dedent) htrailing
  · rw [hsink]
    exact (Sink.write_nil _).symm
  · rw [List.append_nil]
    exact hstage _ hg

/-- Nothing that matters changes. -/
theorem congr (h : Kept j strict b a lost bs g p) (hsink : q.sink = p.sink)
    (hpos : q.position = p.position) (hdedent : q.dedent = p.dedent)
    (htrailing : g ≠ .trail → q.trailing = false) : Kept j strict b a lost bs g q := by
  refine ⟨hpos ▸ h.onCode, ?_, hsink ▸ h.ruler, hsink ▸ h.column, hdedent ▸ h.dedent, htrailing⟩
  rw [hsink, hpos]
  exact h.text

/-- The regions count by what lies in them. -/
theorem of_lost {lost' : List Span} (h : Kept j strict b a lost bs g p)
    (hto : Text.Covered lost lost') (hfrom : Text.Covered lost' lost) :
    Kept j strict b a lost' bs g p := by
  obtain ⟨e, he, hledger, hstage, hbs⟩ := h.text
  have hle : strict = true → ∀ r ∈ lost', r.stop ≤ p.position := by
    intro hs r hr
    obtain ⟨r', hr', hcovers⟩ := hfrom r hr
    exact Nat.le_trans (Span.covers_iff.1 hcovers).2 (hledger.lost_le hs r' hr')
  refine ⟨h.onCode, ⟨e, he, ⟨hledger.le, hle, ?_⟩, hstage, hbs⟩, h.ruler, h.column, h.dedent,
    h.trailing⟩
  obtain ⟨ps, hps, hall, hcopies⟩ := hledger.copies
  refine ⟨ps, hps, fun hs => ?_, hcopies⟩
  have hany : ∀ c : Span, lost.any (·.covers c) = lost'.any (·.covers c) :=
    fun c => Bool.eq_iff_iff.2 ⟨hto.any, hfrom.any⟩
  rw [hall hs, Source.spared, Source.spared]
  simp only [hany]

/-- Where not all has to be kept the regions do not count. -/
theorem forget {lost' : List Span} (h : Kept j strict b a lost bs g p) (hs : strict = false) :
    Kept j strict b a lost' bs g p := by
  obtain ⟨e, he, ⟨hle, -, ps, hps, -, hcopies⟩, hstage⟩ := h.text
  have hno : ∀ {P : Prop}, strict = true → P := by
    intro P h
    rw [hs] at h
    cases h
  exact ⟨h.onCode, ⟨e, he, ⟨hle, fun h => hno h, ps, hps, fun h => hno h, hcopies⟩, hstage⟩, h.ruler,
    h.column, h.dedent, h.trailing⟩

end Kept

/-! ## Scripts -/

/-- A script that leads a pen at `x` from one stage to another, passing over the regions `lost`, and
writes no brackets of code but those of its words. -/
def KeepsAt (j : Job) (strict : Bool) (x : Nat) (g k : Stage) (lost : List Span) (r : Script) :
    Prop :=
  ∀ ⦃b : List Char⦄ ⦃a : Nat⦄ ⦃ls : List Span⦄ ⦃bs : List Char⦄ ⦃p q : Pen⦄, p.position = x →
    Kept j strict b a ls bs g p → j.run r p = .ok q →
      Kept j strict b a (ls ++ lost) (bs ++ r.brackets) k q

def Keeps (j : Job) (strict : Bool) (g k : Stage) (lost : List Span) (r : Script) : Prop :=
  ∀ x, KeepsAt j strict x g k lost r

/-- A script that ends at `o`, if it does not leave the space behind it taken. -/
def Ends (j : Job) (r : Script) (o : Nat) : Prop :=
  ∀ ⦃p q : Pen⦄, j.run r p = .ok q → q.trailing = false → q.position = o

def Needs (j : Job) (r : Script) : Prop :=
  ∀ ⦃p q : Pen⦄, j.run r p = .ok q → p.position < j.source.size

namespace Keeps

variable {j : Job} {strict : Bool} {x o : Nat} {g k l g' k' : Stage} {lost lost' : List Span}
  {r r' : Script} {span : Span}

/-! ## Composition -/

theorem nil : Keeps j strict g g [] [] := by
  intro x b a ls bs p q _ hp hrun
  obtain rfl := Except.ok.inj hrun
  simpa using hp

theorem append_at (h : KeepsAt j strict x g k lost r) (h' : Keeps j strict k l lost' r') :
    KeepsAt j strict x g l (lost ++ lost') (r ++ r') := by
  intro b a ls bs p q hx hp hrun
  obtain ⟨mid, hmid, hq⟩ := Job.run_append_eq_ok.1 hrun
  rw [Script.brackets_append, ← List.append_assoc, ← List.append_assoc]
  exact h' _ rfl (h hx hp hmid) hq

/-- Scripts one after the other. -/
theorem append (h : Keeps j strict g k lost r) (h' : Keeps j strict k l lost' r') :
    Keeps j strict g l (lost ++ lost') (r ++ r') := fun x => append_at (h x) h'

theorem cons {st : Stroke} (h : Keeps j strict g k lost [st]) (h' : Keeps j strict k l lost' r') :
    Keeps j strict g l (lost ++ lost') (st :: r') := h.append h'

/-- Scripts one after the other, the second of which starts where the first ends. -/
theorem append_ends (h : Keeps j strict g k lost r) (hk : k ≠ .trail) (hends : Ends j r o)
    (h' : KeepsAt j strict o k l lost' r') : Keeps j strict g l (lost ++ lost') (r ++ r') := by
  intro x b a ls bs p q hx hp hrun
  obtain ⟨mid, hmid, hq⟩ := Job.run_append_eq_ok.1 hrun
  have hkept := h x hx hp hmid
  rw [Script.brackets_append, ← List.append_assoc, ← List.append_assoc]
  exact h' (hends hmid (hkept.trailing hk)) hkept hq

theorem mono_at (h : KeepsAt j strict x g k lost r) (hg : g'.below g = true)
    (hk : k.below k' = true) : KeepsAt j strict x g' k' lost r :=
  fun _ _ _ _ _ _ hx hp hrun => (h hx (hp.mono hg) hrun).mono hk

theorem mono (h : Keeps j strict g k lost r) (hg : g'.below g = true) (hk : k.below k' = true) :
    Keeps j strict g' k' lost r := fun x => mono_at (h x) hg hk

/-- In code a script can be run that can be run at any stage. -/
theorem of_code (h : Keeps j strict g k lost r) : Keeps j strict .code k lost r :=
  h.mono rfl (by cases k <;> rfl)

theorem of_ready (h : Keeps j strict .loose k lost r) : Keeps j strict .ready k lost r :=
  h.mono rfl (by cases k <;> rfl)

theorem loosen (h : Keeps j strict g .code lost r) : Keeps j strict g .loose lost r :=
  h.mono (by cases g <;> rfl) rfl

theorem of_lost_at (h : KeepsAt j strict x g k lost r) (hto : Text.Covered lost lost')
    (hfrom : Text.Covered lost' lost) : KeepsAt j strict x g k lost' r :=
  fun _ _ ls _ _ _ hx hp hrun => (h hx hp hrun).of_lost (hto.append_left ls) (hfrom.append_left ls)

theorem of_mem_at (h : KeepsAt j strict x g k lost r) (hmem : ∀ y, y ∈ lost ↔ y ∈ lost') :
    KeepsAt j strict x g k lost' r :=
  of_lost_at h (Text.covered_of_subset fun y => (hmem y).1)
    (Text.covered_of_subset fun y => (hmem y).2)

/-- Where not all has to be kept the regions do not count. -/
theorem forget_at (hs : strict = false) (h : KeepsAt j strict x g k lost r) :
    KeepsAt j strict x g k lost' r :=
  fun _ _ _ _ _ _ hx hp hrun => (h hx hp hrun).forget hs

theorem forget (hs : strict = false) (h : Keeps j strict g k lost r) :
    Keeps j strict g k lost' r := fun x => forget_at hs (h x)

/-- Before the end of the source a pen that is ready is in code. -/
theorem of_needs (h : Keeps j strict .code k lost r) (hn : Needs j r) :
    Keeps j strict .ready k lost r :=
  fun x _ _ _ _ _ _ hx hp hrun => h x hx (hp.code_of_ready (hn hrun)) hrun

/-- A script that never comes to its end. -/
theorem of_error (h : ∀ p q, j.run r p ≠ .ok q) : Keeps j strict g k lost r :=
  fun _ _ _ _ _ p q _ _ hrun => absurd hrun (h p q)

theorem of_stroke {st : Stroke}
    (h : ∀ ⦃b : List Char⦄ ⦃a : Nat⦄ ⦃ls : List Span⦄ ⦃bs : List Char⦄ ⦃p q : Pen⦄,
      Kept j strict b a ls bs g p → j.stroke p st = .ok q →
        Kept j strict b a (ls ++ lost) (bs ++ st.brackets) k q) :
    Keeps j strict g k lost [st] := by
  intro x b a ls bs p q _ hp hrun
  rw [Script.brackets_cons, Script.brackets_nil, List.append_nil]
  exact h hp (Job.run_singleton ▸ hrun)

/-- A stroke that passes over nothing and has no words. -/
theorem of_still {st : Stroke} (hst : st.brackets = [])
    (h : ∀ ⦃b : List Char⦄ ⦃a : Nat⦄ ⦃ls : List Span⦄ ⦃bs : List Char⦄ ⦃p q : Pen⦄,
      Kept j strict b a ls bs g p → j.stroke p st = .ok q → Kept j strict b a ls bs k q) :
    Keeps j strict g k [] [st] := by
  refine of_stroke fun b a ls bs p q hp hrun => ?_
  rw [hst, List.append_nil, List.append_nil]
  exact h hp hrun

/-- What a script does that passes over nothing and writes no brackets. -/
theorem still (h : Keeps j strict g k [] r) (hr : r.brackets = []) {b bs : List Char} {a : Nat}
    {ls : List Span} {p q : Pen} (hp : Kept j strict b a ls bs g p) (hrun : j.run r p = .ok q) :
    Kept j strict b a ls bs k q := by
  have hq := h _ rfl hp hrun
  rwa [hr, List.append_nil, List.append_nil] at hq

/-- Strokes that may be left out. -/
theorem optional (c : Bool) (h : Keeps j strict g g [] r) :
    Keeps j strict g g [] (if c = true then r else []) := by
  split
  · exact h
  · exact nil

theorem reject (what : Rejection) : Keeps j strict g k lost [.reject what] :=
  of_error fun _ _ h => Job.stop_ne_ok (Job.run_singleton ▸ h)

theorem breach (what : Breach) : Keeps j strict g k lost [.breach what] :=
  of_error fun _ _ h => Job.stop_ne_ok (Job.run_singleton ▸ h)

theorem flatMap {α : Type} {as : List α} {f : α → Script} {m : α → List Span}
    (h : ∀ y ∈ as, Keeps j strict g g (m y) (f y)) :
    Keeps j strict g g (as.flatMap m) (as.flatMap f) := by
  induction as with
  | nil => exact nil
  | cons y as ih =>
    simp only [List.flatMap_cons]
    exact (h y List.mem_cons_self).append (ih fun z hz => h z (List.mem_cons_of_mem _ hz))

/-! ## Nodes -/

/-- The script of a node. -/
theorem frame_of (h : KeepsAt j strict span.start g k lost r) :
    Keeps j strict g k lost (Script.framed span r) := by
  intro x b a ls bs p q _ hp hrun
  rw [Script.framed, List.cons_append, Job.run_cons_eq_ok] at hrun
  obtain ⟨p', henter, hrun⟩ := hrun
  obtain ⟨hstart, rfl⟩ := Job.enter_eq_ok.1 henter
  obtain ⟨q', hbody, hleave⟩ := Job.run_append_eq_ok.1 hrun
  rw [Job.run_singleton] at hleave
  obtain ⟨rfl, -⟩ := Job.leave_eq_ok hleave
  have hp' : Kept j strict b a ls bs g { p.note with trailing := false } :=
    hp.congr rfl rfl rfl fun _ => rfl
  have hq := h (p := { p.note with trailing := false }) hstart hp' hbody
  rw [Script.brackets_framed]
  exact hq.congr rfl rfl rfl hq.trailing

/-- The script of a node that a pen enters when it is ready. -/
theorem frame (hlt : span.start < j.source.size) (h : KeepsAt j strict span.start .code k lost r) :
    Keeps j strict .ready k lost (Script.framed span r) := by
  refine frame_of fun b a ls bs p q hx hp hrun => h hx (hp.code_of_ready ?_) hrun
  omega

end Keeps

/-! ## Where scripts begin and end -/

theorem ends_framed {j : Job} {span : Span} {r : Script} :
    Ends j (Script.framed span r) span.stop := by
  intro p q hrun ht
  rw [Script.framed, Job.run_append_eq_ok] at hrun
  obtain ⟨q', -, hleave⟩ := hrun
  rw [Job.run_singleton] at hleave
  obtain ⟨rfl, hstop⟩ := Job.leave_eq_ok hleave
  exact hstop ht

namespace Ends

variable {j : Job} {r r' : Script} {o : Nat}

theorem append (h : Ends j r' o) : Ends j (r ++ r') o := by
  intro p q hrun ht
  obtain ⟨mid, -, hrun⟩ := Job.run_append_eq_ok.1 hrun
  exact h hrun ht

theorem write (h : Ends j r o) (t : String) : Ends j (r ++ [Stroke.write t]) o := by
  intro p q hrun ht
  obtain ⟨mid, hmid, hrun⟩ := Job.run_append_eq_ok.1 hrun
  obtain rfl : mid.write t = q := Except.ok.inj (Job.run_singleton ▸ hrun)
  have hend : mid.position = o := h hmid ht
  exact hend

end Ends

namespace Needs

variable {j : Job} {r r' : Script} {span : Span}

theorem framed (hlt : span.start < j.source.size) : Needs j (Script.framed span r) := by
  intro p q hrun
  rw [Script.framed, List.cons_append, Job.run_cons_eq_ok] at hrun
  obtain ⟨p', henter, -⟩ := hrun
  obtain ⟨hstart, -⟩ := Job.enter_eq_ok.1 henter
  omega

theorem append (h : Needs j r) : Needs j (r ++ r') := by
  intro p q hrun
  obtain ⟨mid, hmid, -⟩ := Job.run_append_eq_ok.1 hrun
  exact h hmid

theorem write (h : Needs j r) (t : String) : Needs j (.write t :: r) := by
  intro p q hrun
  obtain ⟨mid, hmid, hrun⟩ := Job.run_cons_eq_ok.1 hrun
  obtain rfl := Except.ok.inj hmid
  have hlt : (p.write t).position < j.source.size := h hrun
  exact hlt

theorem optional (h : Needs j r) (c : Bool) (t : String) :
    Needs j ((if c = true then [Stroke.write t] else []) ++ r) := by
  split
  · exact h.write t
  · exact h

theorem space (h : Needs j r) : Needs j (.copySpace :: r) := by
  intro p q hrun
  obtain ⟨mid, hmid, hrun⟩ := Job.run_cons_eq_ok.1 hrun
  have hlt := h hrun
  rw [Job.copySpace_position hmid] at hlt
  exact Nat.lt_of_le_of_lt (Source.le_skipSpace false _) hlt

end Needs

end Transcribe
