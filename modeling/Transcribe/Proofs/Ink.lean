/-
  Transcribe.Proofs.Ink — where the text of an output comes from.

  A pen writes words of its own and copies space and comments of the source. The text alone does
  not tell the two apart, so a run is read as a list of inks, one stretch after the other, each
  marked with where it comes from. `strokeInks` has the inks of a stroke that leads from one pen to
  another, and `Job.inks` those of a script as far as it can be run.

  Next to a word stands what is copied since the word before it or until the next. A list of inks is
  `Bare` if no word is among them. Back to the last line break and up to the next one all may be
  copied (`ClearBehind`, `ClearAhead`): then the word has its line for itself. A label is the one
  stroke that both copies space and writes a word behind it, in one of two ways (`IsLabel`).
  - `grows_of_stroke`, `extends_stroke`: strokes write more and take nothing back.
  - `text_of_run`: the inks of a run are what it writes.
  - `sinceWord`, `untilWord`: what is copied next to a word.
  - `clearAhead_iff`, `clearBehind_iff`: when only copied text stands beside a word on its line.
-/

import Transcribe.Proofs.Keep.Stroke
import Transcribe.Proofs.Spelling

namespace Transcribe

open Text (Span Source Sink byteLength isBreak)

/-- A stretch of written text: a word of the pen's own, or space and comments of the source. -/
inductive Ink where
  | own (t : List Char)
  | copied (t : List Char)
  deriving DecidableEq, Repr

variable {xs : List Ink} {p q : Pen} {r : Script} {st : Stroke}

namespace Ink

def text : Ink → List Char
  | .own t | .copied t => t

def word : Ink → List Char
  | .own t => t
  | .copied _ => []

def after (copied : List Char) : Ink → List Char
  | .own [] => copied
  | .own _ => []
  | .copied t => copied ++ t

/-- What has been copied since the last word, or since the start if there is none. -/
def sinceWord (xs : List Ink) : List Char := xs.foldl after []

def untilWord : List Ink → List Char
  | [] => []
  | .own [] :: xs => untilWord xs
  | .own (_ :: _) :: _ => []
  | .copied t :: xs => t ++ untilWord xs

def Bare (xs : List Ink) : Prop := ∀ x ∈ xs, x.word = []

theorem Bare.append {ys : List Ink} (hx : Bare xs) (hy : Bare ys) : Bare (xs ++ ys) :=
  List.forall_mem_append.2 ⟨hx, hy⟩

theorem Bare.words (h : Bare xs) : xs.flatMap word = [] :=
  List.flatMap_eq_nil_iff.2 h

theorem untilWord_append (h : Bare xs) (ys : List Ink) :
    untilWord (xs ++ ys) = xs.flatMap text ++ untilWord ys := by
  induction xs with
  | nil => rfl
  | cons x xs ih =>
    obtain ⟨hx, hxs⟩ := List.forall_mem_cons.1 h
    cases x with
    | own t =>
      obtain rfl : t = [] := hx
      exact ih hxs
    | copied t => rw [List.cons_append, untilWord, ih hxs, List.flatMap_cons, List.append_assoc]; rfl

theorem sinceWord_append (ys : List Ink) (h : Bare xs) :
    sinceWord (ys ++ xs) = sinceWord ys ++ xs.flatMap text := by
  induction xs generalizing ys with
  | nil => simp
  | cons x xs ih =>
    obtain ⟨hx, hxs⟩ := List.forall_mem_cons.1 h
    rw [List.append_cons, ih _ hxs, sinceWord, List.foldl_append]
    cases x with
    | own t =>
      obtain rfl : t = [] := hx
      rfl
    | copied t => exact List.append_assoc _ _ _

/-! ## Lines -/

def marks : Ink → List (Char × Bool)
  | .own t => t.map (·, false)
  | .copied t => t.map (·, true)

def ClearAhead (xs : List Ink) : Prop :=
  ∀ c ∈ (xs.flatMap marks).takeWhile fun c => !isBreak c.1, c.2 = true

def ClearBehind (xs : List Ink) : Prop :=
  ∀ c ∈ (xs.flatMap marks).reverse.takeWhile fun c => !isBreak c.1, c.2 = true

def Broken (w : List Char) : Prop := ∃ c ∈ w, isBreak c = true

theorem broken_append {v w : List Char} : Broken (v ++ w) ↔ Broken v ∨ Broken w := by
  simp only [Broken, List.mem_append, or_and_right, exists_or]

theorem not_broken_nil : ¬ Broken [] := by simp [Broken]

/-- Going along a copied text ends at its first break, or goes on behind it. -/
theorem forall_takeWhile_copied (t : List Char) (cs : List (Char × Bool)) :
    (∀ c ∈ ((t.map (·, true)) ++ cs).takeWhile fun c => !isBreak c.1, c.2 = true) ↔
      Broken t ∨ ∀ c ∈ cs.takeWhile fun c => !isBreak c.1, c.2 = true := by
  induction t with
  | nil => simp [not_broken_nil]
  | cons c t ih =>
    cases hc : isBreak c with
    | true => simp [Broken, hc]
    | false =>
      have hbroken : Broken (c :: t) ↔ Broken t := by simp [Broken, hc]
      rw [hbroken, ← ih]
      simp [hc]

/-- Only copied text stands before the next break just if a break is copied before the next word,
or the next word begins with one. -/
theorem clearAhead_iff (xs : List Ink) :
    ClearAhead xs ↔ Broken (untilWord xs) ∨ ∀ c ∈ (xs.flatMap word).head?, isBreak c = true := by
  induction xs with
  | nil => simp [ClearAhead]
  | cons x xs ih =>
    cases x with
    | copied t =>
      rw [untilWord, broken_append, or_assoc]
      exact (forall_takeWhile_copied t (xs.flatMap marks)).trans (or_congr_right ih)
    | own t =>
      cases t with
      | nil => exact ih
      | cons c t =>
        cases hc : isBreak c <;> simp [ClearAhead, marks, untilWord, word, not_broken_nil, hc]

theorem clearBehind_iff (xs : List Ink) :
    ClearBehind xs ↔
      Broken (sinceWord xs) ∨ ∀ c ∈ (xs.flatMap word).getLast?, isBreak c = true := by
  induction xs using List.reverseRecOn with
  | nil => simp [ClearBehind]
  | append_singleton xs x ih =>
    have hlast : sinceWord (xs ++ [x]) = after (sinceWord xs) x := by
      simp [sinceWord, List.foldl_append]
    rw [hlast]
    cases x with
    | copied t =>
      have hcopied := forall_takeWhile_copied t.reverse (xs.flatMap marks).reverse
      rw [show Broken t.reverse ↔ Broken t by simp [Broken]] at hcopied
      rw [after, broken_append, or_comm (a := Broken (sinceWord xs)), or_assoc]
      simpa [ClearBehind, marks, word, List.flatMap_append, ← List.map_reverse] using
        hcopied.trans (or_congr_right ih)
    | own t =>
      cases t using List.reverseRecOn with
      | nil => simpa [ClearBehind, marks, word, after, List.flatMap_append] using ih
      | append_singleton t c =>
        have hafter : after (sinceWord xs) (.own (t ++ [c])) = [] := by cases t <;> rfl
        rw [hafter]
        cases hc : isBreak c <;>
          simp [ClearBehind, marks, word, not_broken_nil, hc, List.flatMap_append]

end Ink

/-! ## What a pen has written more than another -/

def Pen.added (p q : Pen) : List Char := q.sink.text.toList.drop p.sink.text.toList.length

def Pen.Extends (p q : Pen) : Prop := ∃ w, q.sink = p.sink.write (String.ofList w)

theorem Pen.added_of_text {w : List Char} (h : q.sink.text = p.sink.text ++ String.ofList w) :
    p.added q = w := by
  simp [Pen.added, h, String.toList_append]

namespace Pen.Extends

variable {p q q' : Pen}

theorem of_sink (h : q.sink = p.sink) : p.Extends q := ⟨[], by simp [h, Text.Sink.write_nil]⟩

theorem refl (p : Pen) : p.Extends p := of_sink rfl

theorem of_write {t : String} (h : q.sink = p.sink.write t) : p.Extends q := ⟨t.toList, by simp [h]⟩

theorem trans (h : p.Extends q) (h' : q.Extends q') : p.Extends q' := by
  obtain ⟨w, hw⟩ := h
  obtain ⟨w', hw'⟩ := h'
  exact ⟨w ++ w', by rw [hw', hw, Sink.write_write, String.ofList_append]⟩

theorem sink (h : p.Extends q) : q.sink = p.sink.write (String.ofList (p.added q)) := by
  obtain ⟨w, hw⟩ := h
  rw [Pen.added_of_text (w := w) (by simp [hw]), hw]

theorem text (h : p.Extends q) : q.sink.text = p.sink.text ++ String.ofList (p.added q) := by
  rw [h.sink]
  rfl

theorem added (h : p.Extends q) (h' : q.Extends q') : p.added q' = p.added q ++ q.added q' :=
  Pen.added_of_text (by rw [h'.text, h.text, String.ofList_append, String.append_assoc])

end Pen.Extends

def Stroke.isSteady : Stroke → Bool
  | .dedentBy _ | .undent | .trail | .trailPast _ => false
  | _ => true

structure Pen.Grows (p q : Pen) : Prop where
  sink : ∃ t, q.sink = p.sink.write t
  dedent : q.dedent = p.dedent
  trailing : p.trailing = false → q.trailing = false

namespace Pen.Grows

theorem of_eq (hsink : q.sink = p.sink) (hdedent : q.dedent = p.dedent)
    (htrailing : p.trailing = false → q.trailing = false) : p.Grows q :=
  ⟨⟨"", hsink.trans (Text.Sink.write_nil _).symm⟩, hdedent, htrailing⟩

theorem write (p : Pen) (t : String) : p.Grows (p.write t) := ⟨⟨t, rfl⟩, rfl, id⟩

theorem trans {r : Pen} (h : p.Grows q) (h' : q.Grows r) : p.Grows r := by
  obtain ⟨t, ht⟩ := h.sink
  obtain ⟨t', ht'⟩ := h'.sink
  exact ⟨⟨t ++ t', by rw [ht', ht, Text.Sink.write_write]⟩, h'.dedent.trans h.dedent,
    fun hp => h'.trailing (h.trailing hp)⟩

theorem extended (h : p.Grows q) : p.Extends q := by
  obtain ⟨t, ht⟩ := h.sink
  exact .of_write ht

end Pen.Grows

namespace Job

variable {j : Job} {p q : Pen}

/-! ## One stroke -/

theorem grows_writeSpace (cs : List Char) (p : Pen) : p.Grows (j.writeSpace cs p) := by
  obtain ⟨w, -, hw⟩ := j.exists_writeSpace cs p
  rw [hw]
  exact .write p _

theorem grows_copySpace {b : Bool} (h : j.copySpace b p = .ok q) : p.Grows q := by
  obtain ⟨cs, -, rfl⟩ := copySpace_ok h
  exact (grows_writeSpace cs p).trans (.of_eq rfl rfl id)

theorem grows_copyBreak (h : j.copyBreak p = .ok q) : p.Grows q := by
  obtain ⟨cs, -, rfl⟩ := copyBreak_ok h
  exact ⟨⟨_, rfl⟩, rfl, id⟩

/-- What `copyBreak` writes is the line break at the cursor, and nothing if there is none. -/
theorem added_copyBreak (h : j.copyBreak p = .ok q) :
    ∃ r, j.source.rest? p.position = some (p.added q ++ r) ∧
      (∀ c ∈ p.added q, isBreak c = true) ∧
      (p.added q = [] → ∀ c r', r = c :: r' → isBreak c = false) := by
  obtain ⟨cs, hslice, rfl⟩ := copyBreak_ok h
  have hadded : p.added ((p.write (String.ofList cs)).moveTo (j.source.skipBreak p.position)) = cs :=
    Pen.added_of_text rfl
  obtain ⟨⟨r, hrest⟩, hstop⟩ := Source.exists_rest_of_slice? hslice
  obtain ⟨b, r', hsplit, hlen, hbreaks, hnone⟩ := Source.exists_breakLength (cs ++ r)
  have hmeasure : byteLength cs = byteLength b := by
    have hstop : j.source.skipBreak p.position = p.position + byteLength cs := hstop
    simp only [Source.skipBreak, Source.forward, hrest] at hstop
    omega
  obtain ⟨rfl, rfl⟩ := Text.append_inj_of_byteLength hsplit hmeasure
  rw [hadded]
  exact ⟨r, hrest, hbreaks, hnone⟩

theorem grows_copyComments (p : Pen) : p.Grows (j.copyComments p) := by
  unfold copyComments
  dsimp only
  split
  · split
    · exact .of_eq rfl rfl id
    · exact (grows_writeSpace _ p).trans (.of_eq rfl rfl id)
  · exact .of_eq rfl rfl id

theorem grows_newlines (n : Nat) (p : Pen) : p.Grows (Nat.repeat j.newline n p) := by
  induction n with
  | zero => exact .of_eq rfl rfl id
  | succ n ih => exact ih.trans (.write _ j.source.terminator)

def labelGap (j : Job) (member : Nat) (p : Pen) : Except Stop Pen :=
  if j.source.lineNumber p.position = j.source.lineNumber member then j.copySpace false p
  else (j.copySpace true p).bind j.copyBreak

/-- The two ways to write a label: on the line of its member, or on a line of its own. -/
def IsLabel (j : Job) (access : Java.Access) (t : String) : Prop :=
  t = Java.word access ++ ":" ++ " " ∨
    ∃ n, t = String.ofList (List.replicate n ' ') ++ (Java.word access ++ ":") ++ j.source.terminator

theorem labelGap_ok {access : Java.Access} {member owner : Nat}
    (h : j.label access member owner p = .ok q) :
    ∃ mid t, j.labelGap member p = .ok mid ∧ j.IsLabel access t ∧ q = mid.write t := by
  rcases label_ok h with ⟨hline, mid, hcopy, rfl⟩ | ⟨hline, mid, mid', column, hcopy, hbreak, -, rfl⟩
  · exact ⟨mid, _, by rw [labelGap, if_pos hline, hcopy], .inl rfl, rfl⟩
  · refine ⟨mid', _, ?_, .inr ⟨column - mid'.sink.column, rfl⟩, ?_⟩
    · rw [labelGap, if_neg hline, hcopy]
      exact hbreak
    · simp [newline, Pen.write, Sink.padTo, Sink.writeSpaces, Sink.write_write, String.append_assoc]

theorem grows_labelGap {member : Nat} (h : j.labelGap member p = .ok q) : p.Grows q := by
  unfold labelGap at h
  split at h
  · exact grows_copySpace h
  · cases hcopy : j.copySpace true p with
    | error e => rw [hcopy] at h; cases h
    | ok mid =>
      rw [hcopy] at h
      exact (grows_copySpace hcopy).trans (grows_copyBreak h)

/-- Steady strokes only write and move. -/
theorem grows_of_stroke (hst : st.isSteady = true) (h : j.stroke p st = .ok q) :
    p.Grows q := by
  cases st with
  | enter span =>
    obtain ⟨-, rfl⟩ := enter_eq_ok.1 h
    exact .of_eq rfl rfl fun _ => rfl
  | leave span =>
    obtain ⟨rfl, -⟩ := leave_eq_ok h
    exact .of_eq rfl rfl id
  | swap a b =>
    obtain ⟨-, rfl⟩ := swap_ok h
    exact ⟨⟨b, rfl⟩, rfl, id⟩
  | keepIf a =>
    rw [stroke] at h
    split at h
    · obtain ⟨-, rfl⟩ := swap_ok h
      exact ⟨⟨a, rfl⟩, rfl, id⟩
    · cases h
      exact .of_eq rfl rfl id
  | closeLine n =>
    cases h
    split
    · exact .of_eq rfl rfl id
    · exact grows_newlines n p
  | copyDelimiter =>
    rw [stroke, copyDelimiter] at h
    cases hcopy : j.copySpace false p with
    | error e => rw [hcopy] at h; cases h
    | ok mid =>
      rw [hcopy] at h
      cases h
      split
      · exact grows_copySpace hcopy
      · exact (grows_copySpace hcopy).trans (.write mid " ")
  | copySpace | copyLine => exact grows_copySpace h
  | copyComments =>
    cases h
    exact grows_copyComments p
  | copyCommentsOrSkip =>
    cases h
    split
    · exact grows_copyComments p
    · exact (grows_copyComments p).trans (.of_eq rfl rfl id)
  | copyBreak => exact grows_copyBreak h
  | label access member owner =>
    obtain ⟨mid, t, hgap, -, rfl⟩ := labelGap_ok h
    exact (grows_labelGap hgap).trans (.write mid t)
  | copyTrail =>
    rw [stroke] at h
    split at h
    · cases h
      exact .of_eq rfl rfl id
    · exact grows_copySpace h
  | write t | newline =>
    cases h
    exact .write p _
  | reject what | breach what => exact absurd h stop_ne_ok
  | dedentBy _ | undent | trail | trailPast _ => cases hst
  | skipSpace | skipLine | skipBlankLines | moveTo o | moveToLead o =>
    cases h
    exact .of_eq rfl rfl id

theorem grows_of_run (hr : r.all Stroke.isSteady = true) (h : j.run r p = .ok q) :
    p.Grows q := by
  induction r generalizing p with
  | nil =>
    cases h
    exact .of_eq rfl rfl id
  | cons st r ih =>
    obtain ⟨hst, hr⟩ := Bool.and_eq_true_iff.1 hr
    obtain ⟨mid, hmid, hrest⟩ := run_cons_eq_ok.1 h
    exact (grows_of_stroke hst hmid).trans (ih hr hrest)

/-- No stroke takes anything back. -/
theorem extends_stroke (h : j.stroke p st = .ok q) : p.Extends q := by
  cases hst : st.isSteady with
  | true => exact (grows_of_stroke hst h).extended
  | false =>
    cases st with
    | dedentBy o =>
      rw [stroke] at h
      split at h
      · cases h
        exact .of_sink rfl
      · cases h
    | undent | trail | trailPast o =>
      cases h
      exact .of_sink rfl
    | _ => cases hst

def strokeInks (j : Job) (p q : Pen) : Stroke → List Ink
  | .copySpace | .copyLine | .copyTrail | .copyComments | .copyCommentsOrSkip | .copyBreak =>
    [.copied (p.added q)]
  | .copyDelimiter => [if q.movedFrom p then .copied (p.added q) else .own (p.added q)]
  | .label _ member _ =>
    match j.labelGap member p with
    | .ok mid => [.copied (p.added mid), .own (mid.added q)]
    | .error _ => []
  | _ => [.own (p.added q)]

theorem text_strokeInks (h : j.stroke p st = .ok q) :
    (j.strokeInks p q st).flatMap Ink.text = p.added q := by
  cases st with
  | label access member owner =>
    obtain ⟨mid, t, hgap, -, rfl⟩ := labelGap_ok h
    have hmid := (grows_labelGap hgap).extended
    have hq : mid.Extends (mid.write t) := .of_write rfl
    simp [strokeInks, hgap, Ink.text, hmid.added hq]
  | copyDelimiter =>
    rw [strokeInks]
    split <;> simp [Ink.text]
  | _ => simp [strokeInks, Ink.text]

/-! ## A run -/

def inks (j : Job) : Script → Pen → List Ink
  | [], _ => []
  | st :: r, p =>
    match j.stroke p st with
    | .ok q => j.strokeInks p q st ++ inks j r q
    | .error _ => []

theorem inks_cons (h : j.stroke p st = .ok q) :
    j.inks (st :: r) p = j.strokeInks p q st ++ j.inks r q := by
  rw [inks, h]

theorem inks_append {r' : Script} (h : j.run r p = .ok q) :
    j.inks (r ++ r') p = j.inks r p ++ j.inks r' q := by
  induction r generalizing p with
  | nil =>
    cases h
    rfl
  | cons st r ih =>
    obtain ⟨mid, hst, hr⟩ := run_cons_eq_ok.1 h
    rw [List.cons_append, inks_cons hst, inks_cons hst, ih hr, List.append_assoc]

theorem extends_run (h : j.run r p = .ok q) : p.Extends q := by
  induction r generalizing p with
  | nil =>
    cases h
    exact .refl _
  | cons st r ih =>
    obtain ⟨mid, hst, hr⟩ := run_cons_eq_ok.1 h
    exact (extends_stroke hst).trans (ih hr)

/-- The inks of a run are what it writes. -/
theorem added_of_run (h : j.run r p = .ok q) :
    p.added q = (j.inks r p).flatMap Ink.text := by
  induction r generalizing p with
  | nil =>
    cases h
    simp [inks, Pen.added]
  | cons st r ih =>
    obtain ⟨mid, hst, hr⟩ := run_cons_eq_ok.1 h
    rw [inks_cons hst, List.flatMap_append, text_strokeInks hst, ← ih hr]
    exact (extends_stroke hst).added (extends_run hr)

theorem text_of_run (h : j.run r p = .ok q) :
    q.sink.text = p.sink.text ++ String.ofList ((j.inks r p).flatMap Ink.text) := by
  rw [(extends_run h).text, added_of_run h]

end Job

end Transcribe
