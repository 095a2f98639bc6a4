/-
  Transcribe.Proofs.Emit — what a script writes, whatever was written before.

  The strokes of a method depend on the source and the cursor only, not on the output: with no
  indentation to take away and tabs left alone, one run of a script tells what every run from the
  same place writes and where it ends. A pen is `Fresh` if no indentation is to be taken away and
  the space behind the last node is left; every stroke of a method leaves it so. What stands at an
  offset is told by three texts: all space and comments there (`gapText`), the comments with what
  stands between and behind them (`gapComments`), and the space or else one blank (`delimiter`).
  - `plain_ofType`, `level_fragments`, `local_ofHead`: the strokes that scripts are made of.
  - `Emits`: from `o` a script writes `t` and ends at `o'`.
  - `emits_of_run`: a script of local strokes that was run once emits what it wrote then.
-/

import Transcribe.Proofs.ChildScripts

namespace Transcribe

open Text (Span Source byteLength isBlank isBreak)
open Java (Ty Modifier SimpleName Fragment Method)
open Target (Profile)

/-! ## The strokes of methods -/

namespace Script

theorem isLevel_of_isPlain {r : Script} (h : r.all Stroke.isPlain = true) :
    r.all Stroke.isLevel = true :=
  List.all_eq_true.2 fun st hst => Stroke.isLevel_of_isPlain (List.all_eq_true.1 h st hst)

theorem isLocal_of_isLevel {r : Script} (h : r.all Stroke.isLevel = true) :
    r.all Stroke.isLocal = true :=
  List.all_eq_true.2 fun st hst => Stroke.isLocal_of_isLevel (List.all_eq_true.1 h st hst)

theorem all_commaList {P : Stroke → Bool} (hspace : P .copySpace = true)
    (hswap : ∀ a b, P (.swap a b) = true) {as : List Script} (h : ∀ r ∈ as, r.all P = true) :
    (commaList as).all P = true := by
  cases as with
  | nil => rfl
  | cons r as =>
    obtain ⟨hr, has⟩ := List.forall_mem_cons.1 h
    have hrest : (as.flatMap fun item => token "," ++ .copySpace :: item).all P = true := by
      simp only [List.all_flatMap, List.all_eq_true (l := as)]
      intro item hitem
      simp [token, Stroke.keep, hspace, hswap, has item hitem]
    simp [commaList, hspace, hr, hrest]

theorem plain_ofType (p : Profile) (t : Ty) : (ofType p t).all Stroke.isPlain = true :=
  admits_ofNode (.ofProfile p) (n := .type t) nofun

theorem level_ofType (p : Profile) (t : Ty) : (ofType p t).all Stroke.isLevel = true :=
  isLevel_of_isPlain (plain_ofType p t)

theorem level_ofMarkedType (p : Profile) (t : Ty) :
    (ofMarkedType p t).all Stroke.isLevel = true := by
  unfold ofMarkedType marked
  split
  · simp [level_ofType, Stroke.isLevel]
  · exact level_ofType p t

theorem level_commaList {as : List Script} (h : ∀ r ∈ as, r.all Stroke.isLevel = true) :
    (commaList as).all Stroke.isLevel = true :=
  all_commaList rfl (fun _ _ => rfl) h

theorem level_fragments (s : Setting) (fs : List Fragment) :
    (commaList (fs.map (ofFragment s))).all Stroke.isLevel = true := by
  refine level_commaList fun r hr => ?_
  obtain ⟨f, -, rfl⟩ := List.mem_map.1 hr
  exact admits_ofNode s (n := .fragment f) nofun

theorem local_replaceModifiers (ms : List Modifier) (words : List String) :
    (replaceModifiers ms words).all Stroke.isLocal = true := by
  simp only [replaceModifiers]
  split
  · split <;> rfl
  · split <;> simp [List.all_flatMap, Stroke.isLocal, Stroke.isLevel]

theorem local_ofReturnType (s : Setting) (m : Method) :
    (ofReturnType s m).all Stroke.isLocal = true := by
  unfold ofReturnType
  cases m.returnType? with
  | none => rfl
  | some t =>
    simp [isLocal_of_isLevel (level_ofMarkedType s.profile t), Stroke.isLocal, Stroke.isLevel]

theorem local_ofParameterList (s : Setting) (m : Method) :
    (ofParameterList s m).all Stroke.isLocal = true := by
  have hlist : (commaList (m.parameters.map (ofParameter s))).all Stroke.isLocal = true := by
    refine all_commaList rfl (fun _ _ => rfl) fun r hr => ?_
    obtain ⟨q, -, rfl⟩ := List.mem_map.1 hr
    exact admits_ofNode s (n := .parameter q) nofun
  rw [ofParameterList, List.all_append, List.all_append, hlist]
  rfl

theorem local_ofMethodBody (s : Setting) (m : Method) :
    (ofMethodBody s m).all Stroke.isLocal = true := by
  unfold ofMethodBody
  split
  · split
    · rfl
    · exact admits_ofNode { s with inBody := true } (n := .stmt (.block _ _)) nofun
  · split <;> rfl

/-! ## Heads of types -/

theorem level_ofTypeParameters (s : Setting) (h : Java.TypeHead) :
    (ofTypeParameters s h).all Stroke.isLevel = true := by
  unfold ofTypeParameters
  split
  · rfl
  · split
    · rfl
    · have hlist : (commaList (h.typeParameters.map ofTypeParameter)).all Stroke.isLevel = true := by
        refine level_commaList fun r hr => ?_
        obtain ⟨q, -, rfl⟩ := List.mem_map.1 hr
        rfl
      rw [List.all_append, List.all_append, hlist]
      rfl

theorem level_ofSupertypes (s : Setting) (h : Java.TypeHead) :
    (ofSupertypes s h).all Stroke.isLevel = true := by
  have hlist : ∀ ts : List Ty, (commaList (ts.map (ofSupertype s))).all Stroke.isLevel = true := by
    intro ts
    refine level_commaList fun r hr => ?_
    obtain ⟨t, -, rfl⟩ := List.mem_map.1 hr
    rw [ofSupertype, List.all_append, level_ofType]
    split <;> rfl
  have hclause : ∀ (st : Stroke) (a b : String) (ts : List Ty), st.isLevel = true →
      (st :: .swap a b :: commaList (ts.map (ofSupertype s))).all Stroke.isLevel = true := by
    intro st a b ts hst
    rw [List.all_cons, List.all_cons, hst, hlist]
    rfl
  unfold ofSupertypes
  cases h.extended with
  | nil =>
    cases h.implemented with
    | nil => rfl
    | cons i is => exact hclause .copySpace _ _ (i :: is) rfl
  | cons e es =>
    cases h.implemented with
    | nil => exact hclause .copySpace _ _ (e :: es) rfl
    | cons i is =>
      rw [List.all_append]
      exact Bool.and_eq_true_iff.2 ⟨hclause .copySpace _ _ (e :: es) rfl,
        hclause .skipSpace _ _ (i :: is) rfl⟩

theorem local_ofHead (s : Setting) (h : Java.TypeHead) : (ofHead s h).all Stroke.isLocal = true := by
  have hkeyword : (typeKeyword s h).isLocal = true := by
    unfold typeKeyword
    split <;> rfl
  simp only [ofHead, List.all_append, List.all_cons, local_replaceModifiers,
    hkeyword, isLocal_of_isLevel (level_ofTypeParameters s h),
    isLocal_of_isLevel (level_ofSupertypes s h)]
  rfl

end Script

/-! ## Gaps -/

namespace Text.Source

variable (s : Source) (o : Nat)

def gapText : List Char := (s.slice? ⟨o, s.skipSpace false o⟩).getD []

def gapComments : List Char := (s.gapText o).dropWhile fun c => isBlank c || isBreak c

def delimiter : List Char := if s.skipSpace false o = o then [' '] else s.gapText o

variable {s o}

theorem gapText_of_slice {cs : List Char} (h : s.slice? ⟨o, s.skipSpace false o⟩ = some cs) :
    s.gapText o = cs := by
  rw [gapText, h, Option.getD_some]

theorem gapText_of_stay (h : s.skipSpace false o = o) : s.gapText o = [] := by
  rw [gapText, h]
  cases hcs : s.slice? ⟨o, o⟩ with
  | none => rfl
  | some cs =>
    simp only [Source.slice?, Text.slice?, Nat.le_refl, if_true, Nat.sub_self] at hcs
    obtain ⟨rest, -, htake⟩ := Option.bind_eq_some_iff.1 hcs
    simpa using htake.symm

end Text.Source

/-! ## Emission -/

/-- From `o`, with no indentation to take away, a script writes `t` and ends at `o'`, whatever was
written before. -/
def Job.Emits (j : Job) (r : Script) (o : Nat) (t : String) (o' : Nat) : Prop :=
  ∀ p : Pen, p.position = o → p.dedent = 0 → ∃ q, j.run r p = .ok q ∧ q.position = o' ∧
    q.dedent = 0 ∧ (p.trailing = false → q.trailing = false) ∧ q.sink.text = p.sink.text ++ t

def Pen.Fresh (p : Pen) : Prop := p.dedent = 0 ∧ p.trailing = false

namespace Job

variable {j : Job} {r r' : Script} {o o' o'' : Nat} {t t' : String}

theorem Emits.nil (o : Nat) : j.Emits [] o "" o :=
  fun p hp hd => ⟨p, rfl, hp, hd, id, by simp⟩

theorem Emits.append (h : j.Emits r o t o') (h' : j.Emits r' o' t' o'') :
    j.Emits (r ++ r') o (t ++ t') o'' := by
  intro p hp hd
  obtain ⟨mid, hmid, hpos, hdedent, htrail, htext⟩ := h p hp hd
  obtain ⟨q, hq, hpos', hdedent', htrail', htext'⟩ := h' mid hpos hdedent
  refine ⟨q, run_append_eq_ok.2 ⟨mid, hmid, hq⟩, hpos', hdedent', fun ht => htrail' (htrail ht), ?_⟩
  rw [htext', htext, String.append_assoc]

/-- What a script emits is what a run of it has written. -/
theorem Emits.of_run (h : j.Emits r o t o') {p q : Pen} (hp : p.position = o) (hd : p.dedent = 0)
    (hrun : j.run r p = .ok q) : q.position = o' ∧ q.dedent = 0 ∧
      (p.trailing = false → q.trailing = false) ∧ q.sink.text = p.sink.text ++ t := by
  obtain ⟨q', hq, hrest⟩ := h p hp hd
  obtain rfl := Except.ok.inj (hrun.symm.trans hq)
  exact hrest

theorem Emits.fresh (h : j.Emits r o t o') {p q : Pen} (hp : p.position = o) (hfresh : p.Fresh)
    (hrun : j.run r p = .ok q) : q.position = o' ∧ q.Fresh := by
  obtain ⟨hpos, hdedent, htrail, -⟩ := h.of_run hp hfresh.1 hrun
  exact ⟨hpos, hdedent, htrail hfresh.2⟩

theorem Emits.unique (h : j.Emits r o t o') (h' : j.Emits r o t' o'') : t = t' ∧ o' = o'' := by
  let p : Pen := { j.pen with position := o }
  obtain ⟨q, hq, hpos, -, -, htext⟩ := h p rfl rfl
  obtain ⟨hpos', -, -, htext'⟩ := h'.of_run rfl rfl hq
  exact ⟨by simpa [p, pen, Text.Sink.empty] using htext.symm.trans htext', hpos.symm.trans hpos'⟩

theorem emits_single {st : Stroke} (h : ∀ p : Pen, p.position = o → p.dedent = 0 →
      ∃ q, j.stroke p st = .ok q ∧ q.position = o' ∧ q.dedent = 0 ∧
        (p.trailing = false → q.trailing = false) ∧ q.sink.text = p.sink.text ++ t) :
    j.Emits [st] o t o' := by
  intro p hp hd
  rw [run_singleton]
  exact h p hp hd

theorem emits_write (o : Nat) (t : String) : j.Emits [.write t] o t o :=
  emits_single fun p hp hd => ⟨p.write t, rfl, hp, hd, id, rfl⟩

theorem emits_moveTo (o o' : Nat) : j.Emits [.moveTo o'] o "" o' :=
  emits_single fun p _ hd => ⟨p.moveTo o', rfl, rfl, hd, id, by simp⟩

theorem emits_skipSpace (o : Nat) : j.Emits [.skipSpace] o "" (j.source.skipSpace false o) :=
  emits_single fun p hp hd => ⟨j.skipSpace false p, rfl, by rw [skipSpace, hp]; rfl, hd, id,
    by simp [skipSpace]⟩

theorem emits_enter (span : Span) : j.Emits [.enter span] span.start "" span.start := by
  refine emits_single fun p hp hd => ?_
  exact ⟨_, enter_eq_ok.2 ⟨hp, rfl⟩, hp, hd, fun _ => rfl, by simp [Pen.note]⟩

/-- At the end of a node it does not matter whether the space behind it was taken. -/
theorem emits_leave (span : Span) : j.Emits [.leave span] span.stop "" span.stop := by
  refine emits_single fun p hp hd => ?_
  have hleave : j.stroke p (.leave span) = .ok p.note := by
    rw [stroke, leave]
    cases p.trailing <;> simp [requireAt, requireFrom, hp, bind, Except.bind, pure, Except.pure]
  exact ⟨p.note, hleave, hp, hd, id, by simp⟩

theorem emits_swap {a b : String} {cs : List Char} (h : j.source.rest? o = some (a.toList ++ cs)) :
    j.Emits [.swap a b] o b (o + byteLength a.toList) := by
  refine emits_single fun p hp hd => ?_
  have hexpect : j.expect a p = .ok (p.moveTo (p.position + byteLength a.toList)) := by
    rw [expect, hp, h]
    simp
  refine ⟨(p.moveTo (p.position + byteLength a.toList)).write b, ?_, ?_, hd, id, rfl⟩
  · rw [stroke, hexpect]
    rfl
  · rw [← hp]
    rfl

variable (hx : j.profile.expandTabs = false)
include hx

theorem writeSpace_eq {p : Pen} (hd : p.dedent = 0) (cs : List Char) :
    j.writeSpace cs p = p.write (String.ofList cs) := by
  simp [writeSpace, hx, hd]

theorem emits_copySpace {cs : List Char}
    (h : j.source.slice? ⟨o, j.source.skipSpace false o⟩ = some cs) :
    j.Emits [.copySpace] o (String.ofList cs) (j.source.skipSpace false o) := by
  refine emits_single fun p hp hd => ?_
  subst hp
  refine ⟨(p.write (String.ofList cs)).moveTo (j.source.skipSpace false p.position), ?_, rfl, hd,
    id, rfl⟩
  simp only [stroke, copySpace, h, writeSpace_eq hx hd]

theorem emits_copyDelimiter {cs : List Char}
    (h : j.source.slice? ⟨o, j.source.skipSpace false o⟩ = some cs) :
    j.Emits [.copyDelimiter] o (String.ofList (j.source.delimiter o)) (j.source.skipSpace false o) := by
  refine emits_single fun p hp hd => ?_
  obtain ⟨q, hq, hpos, hdedent, htrail, htext⟩ := emits_copySpace hx h p hp hd
  rw [run_singleton, stroke] at hq
  have hdelimiter : j.stroke p .copyDelimiter = .ok (if q.movedFrom p then q else q.write " ") := by
    rw [stroke, copyDelimiter, hq]
    rfl
  rw [hdelimiter, Source.delimiter, Source.gapText_of_slice h]
  by_cases hstay : j.source.skipSpace false o = o
  · have hmoved : q.movedFrom p = false := by simp [Pen.movedFrom, hpos, hp, hstay]
    obtain rfl : cs = [] := Source.gapText_of_slice h ▸ Source.gapText_of_stay hstay
    refine ⟨q.write " ", by simp [hmoved], hpos, hdedent, htrail, ?_⟩
    rw [if_pos hstay, Pen.write_sink, Text.Sink.write_text, htext]
    simp
  · have hmoved : q.movedFrom p = true := by simp [Pen.movedFrom, hpos, hp, hstay]
    exact ⟨q, by simp [hmoved], hpos, hdedent, htrail, by rw [if_neg hstay, htext]⟩

theorem copyComments_eq {p : Pen} (hd : p.dedent = 0) :
    j.copyComments p = if j.source.gapComments p.position = [] then p else
      (p.write (String.ofList (j.source.gapComments p.position))).moveTo
        (j.source.skipSpace false p.position) := by
  unfold copyComments
  dsimp only
  split
  · rename_i cs hcs
    have hcomments : j.source.gapComments p.position
        = cs.dropWhile fun c => isBlank c || isBreak c := by
      rw [Source.gapComments, Source.gapText_of_slice hcs]
    rw [hcomments]
    split
    · rename_i hdrop
      rw [if_pos hdrop]
    · rename_i c rest hdrop
      rw [if_neg (by simp [hdrop]), hdrop, writeSpace_eq hx hd]
  · rename_i hcs
    rw [if_pos (by simp [Source.gapComments, Source.gapText, hcs])]

theorem emits_copyComments (o : Nat) :
    j.Emits [.copyComments] o (String.ofList (j.source.gapComments o))
      (if j.source.gapComments o = [] then o else j.source.skipSpace false o) := by
  refine emits_single fun p hp hd => ?_
  subst hp
  refine ⟨j.copyComments p, rfl, ?_⟩
  rw [copyComments_eq hx hd]
  split
  · rename_i hnone
    exact ⟨rfl, hd, id, by simp [hnone]⟩
  · exact ⟨rfl, hd, id, rfl⟩

theorem emits_copyCommentsOrSkip (o : Nat) :
    j.Emits [.copyCommentsOrSkip] o (String.ofList (j.source.gapComments o))
      (j.source.skipSpace false o) := by
  refine emits_single fun p hp hd => ?_
  subst hp
  have hstroke : j.stroke p .copyCommentsOrSkip = .ok (if (j.copyComments p).movedFrom p then
      j.copyComments p else j.skipSpace false (j.copyComments p)) := rfl
  rw [hstroke, copyComments_eq hx hd]
  by_cases hnone : j.source.gapComments p.position = []
  · rw [if_pos hnone]
    refine ⟨_, rfl, ?_⟩
    rw [if_neg (by simp [Pen.movedFrom])]
    exact ⟨rfl, hd, id, by simp [skipSpace, hnone]⟩
  · rw [if_neg hnone]
    have hmoved : j.source.skipSpace false p.position ≠ p.position := fun hstay =>
      hnone (by rw [Source.gapComments, Source.gapText_of_stay hstay]; rfl)
    refine ⟨_, rfl, ?_⟩
    rw [if_pos (by simp [Pen.movedFrom, hmoved])]
    exact ⟨rfl, hd, id, rfl⟩

/-- A local stroke that was made once can be made from the same place over any output, and writes
the same. -/
theorem emits_of_stroke {st : Stroke} (hst : st.isLocal = true) {p q : Pen} (hp : p.Fresh)
    (h : j.stroke p st = .ok q) : ∃ t, j.Emits [st] p.position t q.position := by
  have hfrom : ∀ {t o'}, j.Emits [st] p.position t o' → ∃ t, j.Emits [st] p.position t q.position :=
    fun {t o'} he => by
      obtain ⟨hpos, -⟩ := he.fresh rfl hp (run_singleton.trans h)
      exact ⟨t, hpos ▸ he⟩
  cases st with
  | enter span =>
    obtain ⟨hstart, rfl⟩ := enter_eq_ok.1 h
    exact ⟨"", by simpa [hstart] using emits_enter span⟩
  | leave span =>
    obtain ⟨rfl, hstop⟩ := leave_eq_ok h
    exact ⟨"", by simpa [hstop hp.2] using emits_leave span⟩
  | swap a b =>
    obtain ⟨⟨cs, hcs⟩, rfl⟩ := swap_ok h
    exact ⟨b, emits_swap hcs⟩
  | keepIf a =>
    cases hsees : j.sees a p with
    | true =>
      rw [stroke, hsees, if_pos rfl] at h
      obtain ⟨⟨cs, hcs⟩, rfl⟩ := swap_ok (show j.stroke p (.swap a a) = .ok q from h)
      refine ⟨a, emits_single fun p' hp' hd' => ?_⟩
      obtain ⟨q', hq', hrest⟩ := emits_swap (b := a) hcs p' hp' hd'
      have hsees' : j.sees a p' = true := by rw [sees, hp']; exact hsees
      rw [run_singleton] at hq'
      exact ⟨q', by rw [stroke, hsees', if_pos rfl]; exact hq', hrest⟩
    | false =>
      rw [stroke, hsees, if_neg (by simp)] at h
      cases h
      refine ⟨"", emits_single fun p' hp' hd' => ⟨p', ?_, hp', hd', id, by simp⟩⟩
      have hsees' : j.sees a p' = false := by rw [sees, hp']; exact hsees
      rw [stroke, hsees', if_neg (by simp)]
  | write t =>
    cases h
    exact ⟨t, emits_write _ t⟩
  | copySpace =>
    obtain ⟨cs, hcs, -⟩ := copySpace_ok h
    exact hfrom (emits_copySpace hx hcs)
  | copyDelimiter =>
    rw [stroke, copyDelimiter] at h
    cases hcopy : j.copySpace false p with
    | error e =>
      rw [hcopy] at h
      cases h
    | ok q' =>
      obtain ⟨cs, hcs, -⟩ := copySpace_ok hcopy
      exact hfrom (emits_copyDelimiter hx hcs)
  | copyComments => exact hfrom (emits_copyComments hx _)
  | copyCommentsOrSkip => exact hfrom (emits_copyCommentsOrSkip hx _)
  | skipSpace =>
    cases h
    exact ⟨"", emits_skipSpace _⟩
  | moveTo o' =>
    cases h
    exact ⟨"", emits_moveTo _ o'⟩
  | reject what => exact absurd h stop_ne_ok
  | breach what => exact absurd h stop_ne_ok
  | _ => cases hst

theorem emits_of_run (hr : r.all Stroke.isLocal = true) {p q : Pen} (hp : p.Fresh)
    (h : j.run r p = .ok q) : ∃ t, j.Emits r p.position t q.position := by
  induction r generalizing p with
  | nil =>
    cases h
    exact ⟨"", .nil _⟩
  | cons st r ih =>
    obtain ⟨hst, hr⟩ := Bool.and_eq_true_iff.1 hr
    obtain ⟨mid, hmid, hrest⟩ := run_cons_eq_ok.1 h
    obtain ⟨t, hstroke⟩ := emits_of_stroke hx hst hp hmid
    obtain ⟨-, hfresh⟩ := hstroke.fresh rfl hp (run_singleton.trans hmid)
    obtain ⟨t', hscript⟩ := ih hr hfresh hrest
    exact ⟨t ++ t', hstroke.append hscript⟩

end Job

end Transcribe
