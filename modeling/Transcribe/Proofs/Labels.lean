/-
  Transcribe.Proofs.Labels — every member of a C++ class has the access it has in the source.

  The members of a class are written one after the other, with a label in front of each whose
  access is not that of the member before it. So at every member the last label is the member's
  access. A label goes behind copied space, and that space ends every comment it begins: a line
  comment with the break of its line, which is copied before the label is written.

  The access a body begins with is private. `lastAccess` carries it from member to member and
  `labels` has the label in front of each, if there is one; both are read off the members alone.
  What a run writes is compared with them: in front of member `i` stands a pen that has written the
  body up to there, and the strokes for the label and for the space lead it to the member (`Lead`).
  That a member ends with a word (`EndsWord`) keeps the space in front of the next apart from it.
  - `finish_labelGap`: in front of a label no comment is open.
  - `exists_lead`: what the run of a body is at one of its members.
  - `access_of_members`: the labels of a class, member by member.
-/

import Transcribe.Proofs.Comment
import Transcribe.Proofs.Ink
import Transcribe.Proofs.Outline
import Transcribe.Proofs.Spelling
import Transcribe.Script.Decl
import Mathlib.Data.List.ReduceOption

namespace Transcribe

open Text (Span Source Scan Copy byteLength isBreak)
open Text.Scan (finish)
open Grammar (Peg Mode Cursor Derivation Takes gap gapTo_gap)
open Java (Rule Node Member TypeHead TypeDecl Access)

/-! ## Where a member begins -/

namespace Java

variable {s : Source} {m : Mode} {c d : Cursor} {ts : List (Derivation Rule)}

end Java

/-! ## In front of a label -/

namespace Job

variable {j : Job} {p q : Pen}

/-- Behind copied space no comment is open, but for a line comment at the break of its line. -/
theorem finish_copySpace {toBreak : Bool} (h : j.copySpace toBreak p = .ok q)
    (hq : q.position < j.source.size) :
    finish .code (p.added q) = .code ∨
      (∃ acc, finish .code (p.added q) = .line acc) ∧
        ∃ ch r, j.source.rest? q.position = some (ch :: r) ∧ toBreak = true ∧ isBreak ch = true := by
  obtain ⟨cs, hslice, rfl⟩ := copySpace_ok h
  obtain ⟨⟨r, hrest⟩, hstop⟩ := Source.exists_rest_of_slice? hslice
  obtain ⟨w, hw, hwrite⟩ := j.exists_writeSpace cs p
  have hadded : p.added ((j.writeSpace cs p).moveTo (j.source.skipSpace toBreak p.position)) = w :=
    Pen.added_of_text (by rw [hwrite]; rfl)
  -- The run that was copied is the run that the walk over space measures.
  obtain ⟨g, r', hsplit, hlen, hends, -⟩ := Scan.finish_gap (b := toBreak) .space (cs ++ r)
  have hmeasure : byteLength cs = byteLength g := by
    have hskip : j.source.skipSpace toBreak p.position
        = p.position + Text.spaceLength toBreak .space (cs ++ r) := by
      simp only [Source.skipSpace, Source.forward, hrest]
    have hstop : j.source.skipSpace toBreak p.position = p.position + byteLength cs := hstop
    omega
  obtain ⟨rfl, rfl⟩ : cs = g ∧ r = r' := Text.append_inj_of_byteLength hsplit hmeasure
  have hbehind : j.source.rest? (j.source.skipSpace toBreak p.position) = some r := by
    rw [show j.source.skipSpace toBreak p.position = p.position + byteLength cs from hstop]
    exact Source.rest?_add hrest
  have halike := (Text.texts_copy hw).2
  obtain ⟨ch, r, rfl⟩ : ∃ ch r', r = ch :: r' := by
    cases r with
    | nil =>
      have := Source.add_byteLength hbehind
      simp only [Text.byteLength_nil, Pen.moveTo_position] at this hq
      omega
    | cons ch r => exact ⟨ch, r, rfl⟩
  rw [hadded]
  cases hstate : finish .code cs with
  | code => exact .inl (halike.code hstate)
  | line acc =>
    rw [hstate] at hends
    exact .inr ⟨halike.line acc hstate, ch, r, hbehind, hends ch r rfl⟩
  | block acc | star acc =>
    rw [hstate] at hends
    cases hends
  | slash | literal c | escape c =>
    rw [hstate] at hends
    exact hends.elim

/-- A line break ends a line comment, and goes on in code where there is none. -/
theorem finish_copyBreak {m : Scan} (h : j.copyBreak p = .ok q)
    (hm : m = .code ∨ (∃ acc, m = .line acc) ∧
      ∃ ch r, j.source.rest? p.position = some (ch :: r) ∧ isBreak ch = true) :
    m.finish (p.added q) = .code := by
  obtain ⟨r, hrest, hbreaks, hnone⟩ := added_copyBreak h
  by_cases hnil : p.added q = []
  · rcases hm with rfl | ⟨-, ch, r', hch, hbreak⟩
    · rw [hnil]
      rfl
    · rw [hrest, hnil] at hch
      exact absurd hbreak (by simp [hnone hnil ch r' (Option.some.inj hch)])
  · exact (Scan.finish_breaks (hm.imp id And.left) hbreaks hnil).2.1

theorem le_of_copyBreak (h : j.copyBreak p = .ok q) : p.position ≤ q.position := by
  obtain ⟨cs, hslice, rfl⟩ := copyBreak_ok h
  obtain ⟨-, hstop⟩ := Source.exists_rest_of_slice? hslice
  exact Nat.le.intro hstop.symm

/-- The space in front of a label was copied by strokes that copy, and leaves no comment open. -/
theorem finish_labelGap {member : Nat} (h : j.labelGap member p = .ok q)
    (hq : q.position < j.source.size) :
    finish .code (p.added q) = .code ∧
      ∃ r, (r = [.copySpace] ∨ r = [.copyLine, .copyBreak]) ∧ j.run r p = .ok q := by
  unfold labelGap at h
  split at h
  · refine ⟨?_, [.copySpace], .inl rfl, by rwa [run_singleton]⟩
    rcases finish_copySpace h hq with hcode | ⟨-, _, _, -, hfalse, -⟩
    · exact hcode
    · cases hfalse
  · cases hcopy : j.copySpace true p with
    | error e => rw [hcopy] at h; cases h
    | ok mid =>
      rw [hcopy] at h
      have h : j.copyBreak mid = .ok q := h
      have hle := le_of_copyBreak h
      have hstate := finish_copySpace hcopy (Nat.lt_of_le_of_lt hle hq)
      refine ⟨?_, [.copyLine, .copyBreak], .inr rfl,
        run_cons_eq_ok.2 ⟨mid, hcopy, by rwa [run_singleton]⟩⟩
      rw [(grows_copySpace hcopy).extended.added (grows_copyBreak h).extended, Scan.finish_append]
      refine finish_copyBreak h (hstate.imp_right ?_)
      rintro ⟨hline, ch, r, hch, -, hbreak⟩
      exact ⟨hline, ch, r, hch, hbreak⟩

end Job

/-! ## Scripts that end with a word -/

/-- Whatever was copied before, when a script has been run a word was written last. -/
def EndsWord (j : Job) (r : Script) : Prop :=
  ∀ ⦃p q : Pen⦄, j.run r p = .ok q → ∀ copied, (j.inks r p).foldl Ink.after copied = []

namespace EndsWord

variable {j : Job} {r r' : Script}

theorem append (h : EndsWord j r') : EndsWord j (r ++ r') := by
  intro p q hrun copied
  obtain ⟨mid, hr, hr'⟩ := Job.run_append_eq_ok.1 hrun
  rw [Job.inks_append hr, List.foldl_append]
  exact h hr' _

theorem swap (a : String) {b : String} (hb : b ≠ "") : EndsWord j [.swap a b] := by
  intro p q hrun copied
  rw [Job.run_singleton] at hrun
  obtain ⟨-, hq⟩ := Job.swap_ok hrun
  have hadded : p.added q = b.toList := Pen.added_of_text (by simp [hq])
  rw [Job.inks_cons hrun]
  cases hb' : b.toList with
  | nil => exact absurd (String.toList_eq_nil_iff.1 hb') hb
  | cons c cs => simp [Job.strokeInks, Job.inks, hadded, hb', Ink.after]

theorem write {t : String} (ht : t ≠ "") : EndsWord j [.write t] := by
  intro p q hrun copied
  rw [Job.run_singleton] at hrun
  have hadded : p.added q = t.toList := Pen.added_of_text (by simp [← Except.ok.inj hrun])
  rw [Job.inks_cons hrun]
  cases ht' : t.toList with
  | nil => exact absurd (String.toList_eq_nil_iff.1 ht') ht
  | cons c cs => simp [Job.strokeInks, Job.inks, hadded, ht', Ink.after]

/-- A stroke behind the word that writes nothing. -/
theorem silent {st : Stroke} (h : EndsWord j r)
    (hst : ∀ p q, j.stroke p st = .ok q → j.strokeInks p q st = [.own []]) :
    EndsWord j (r ++ [st]) := by
  intro p q hrun copied
  obtain ⟨mid, hr, hlast⟩ := Job.run_append_eq_ok.1 hrun
  rw [Job.run_singleton] at hlast
  rw [Job.inks_append hr, List.foldl_append, h hr, Job.inks_cons hlast, hst _ _ hlast]
  rfl

theorem leave (span : Span) (h : EndsWord j r) : EndsWord j (r ++ [Stroke.leave span]) := by
  refine h.silent fun p q hst => ?_
  obtain ⟨rfl, -⟩ := Job.leave_eq_ok hst
  simp [Job.strokeInks, Pen.added]

theorem moveTo (o : Nat) (h : EndsWord j r) : EndsWord j (r ++ [Stroke.moveTo o]) := by
  refine h.silent fun p q hst => ?_
  obtain rfl := Except.ok.inj hst
  simp [Job.strokeInks, Pen.added]

theorem framed (span : Span) (h : EndsWord j r) : EndsWord j (Script.framed span r) :=
  (h.append (r := [.enter span])).leave span

theorem token {t : String} (ht : t ≠ "") : EndsWord j (Script.token t) :=
  (swap t ht).append (r := [.copySpace])

/-- In a C++ header the last of a member is a semicolon. -/
theorem ofMember {s : Setting} (hcpp : s.isCpp = true) (hheader : s.part = .header) (m : Member)
    (hinner : ∀ k body, m = .type k body → Script.isOutermost s k = false) :
    EndsWord j (Script.ofMember s m) := by
  have hpart : s.defining = false := by simp [Setting.defining, hheader]
  cases m with
  | field f =>
    rw [Script.ofMember]
    exact (token (by decide)).append.framed f.span
  | method m =>
    rw [Script.ofMember, Script.ofMethod]
    refine (append ?_).framed m.span
    unfold Script.ofMethodBody
    split
    · rename_i b hb
      simp only [hcpp, hpart, Bool.not_false, Bool.and_self, if_true]
      exact (write (t := ";") (by decide)).moveTo b.span.stop
    · exact (swap ";" (by decide)).append
  | type k body =>
    rw [Script.ofMember]
    refine (append ?_).framed k.span
    simp only [Script.ofEnd, hcpp, hinner k body rfl, Bool.and_false, Bool.false_eq_true, if_false]
    exact (swap "\x7d" (b := "\x7d;") (by decide)).append (r := [.copySpace])

theorem ofMembers {s : Setting} (hcpp : s.isCpp = true) (hheader : s.part = .header)
    (owner : TypeHead) (current : Access) {ms : List Member} (hms : ms ≠ [])
    (hinner : ∀ k body, .type k body ∈ ms → Script.isOutermost s k = false) :
    EndsWord j (Script.ofMembers s owner current ms) := by
  induction ms generalizing current with
  | nil => exact absurd rfl hms
  | cons m ms ih =>
    rw [Script.ofMembers]
    by_cases hnil : ms = []
    · subst hnil
      rw [Script.ofMembers, List.append_nil]
      have hlast : EndsWord j (Script.ofMember s m) :=
        ofMember hcpp hheader m fun k body hm => hinner k body (by simp [hm])
      exact (hlast.append (r := [.copySpace])).append
    · exact (ih _ hnil fun k body hk => hinner k body (List.mem_cons_of_mem _ hk)).append

end EndsWord

/-! ## The labels of a class -/

namespace Script

def lastAccess (owner : TypeHead) (current : Access) (ms : List Member) : Access :=
  (ms.getLast?.map (memberAccess owner)).getD current

theorem lastAccess_cons (owner : TypeHead) (current : Access) (m : Member) (ms : List Member) :
    lastAccess owner current (m :: ms) = lastAccess owner (memberAccess owner m) ms := by
  cases ms with
  | nil => rfl
  | cons m' ms => simp [lastAccess, List.getLast?_cons]

/-- The members in front of another are written as if they were all. -/
theorem ofMembers_append (s : Setting) (owner : TypeHead) (current : Access) (ms ms' : List Member) :
    ofMembers s owner current (ms ++ ms')
      = ofMembers s owner current ms ++ ofMembers s owner (lastAccess owner current ms) ms' := by
  induction ms generalizing current with
  | nil => rfl
  | cons m ms ih =>
    simp only [List.cons_append, ofMembers, ih, lastAccess_cons, List.append_assoc]

variable {owner : TypeHead}

end Script

/-- What goes between a member and what stands before it: copied space, with a label in it where
there is one. In front of the label no comment is open. -/
inductive Lead (j : Job) : Option Access → Pen → Pen → Prop where
  | bare {p q : Pen} (h : j.run [.copySpace] p = .ok q) : Lead j none p q
  | labelled {access : Access} {p mid q : Pen} {r : Script} {t : String}
      (hr : r = [.copySpace] ∨ r = [.copyLine, .copyBreak]) (hgap : j.run r p = .ok mid)
      (hcode : finish .code (p.added mid) = .code) (ht : j.IsLabel access t)
      (h : j.run [.copySpace] (mid.write t) = .ok q) : Lead j (some access) p q

theorem lead_of_run {j : Job} {s : Setting} (hcpp : s.isCpp = true) {owner : TypeHead}
    {current : Access} {m : Member} {p q : Pen}
    (h : j.run (Script.labelFor s owner current m ++ [Stroke.copySpace]) p = .ok q)
    (hq : q.position < j.source.size) :
    Lead j (if Script.memberAccess owner m = current then none
      else some (Script.memberAccess owner m)) p q := by
  unfold Script.labelFor at h
  by_cases hsame : Script.memberAccess owner m = current
  · rw [if_pos hsame]
    exact .bare (by simpa [hsame] using h)
  · rw [if_neg hsame]
    rw [if_pos (by simp [hcpp, hsame])] at h
    obtain ⟨mid, hlabel, hcopy⟩ := Job.run_append_eq_ok.1 h
    rw [Job.run_singleton] at hlabel
    obtain ⟨gap, t, hgap, ht, rfl⟩ := Job.labelGap_ok hlabel
    have hle : gap.position ≤ q.position := by
      have hpos := Job.copySpace_position (Job.run_singleton ▸ hcopy)
      rw [hpos]
      exact Source.le_skipSpace false _
    obtain ⟨hcode, r, hr, hrun⟩ := Job.finish_labelGap hgap (Nat.lt_of_le_of_lt hle hq)
    exact .labelled hr hrun hcode ht hcopy

theorem start_of_ofMember {j : Job} {s : Setting} {m : Member} {p q : Pen}
    (h : j.run (Script.ofMember s m) p = .ok q) : p.position = m.span.start := by
  cases m with
  | field f | method f | type k body =>
    rw [Script.ofMember] at h
    obtain ⟨_, hpos, -⟩ := Job.framed_ok h
    exact hpos

/-- One member of a class that was written: everything up to the member before it was, a word was
written last, and what goes between leads to the member. -/
theorem exists_lead {j : Job} {s : Setting} (hcpp : s.isCpp = true) (hheader : s.part = .header)
    {owner : TypeHead} {pre post : List Member} {m : Member}
    (hinner : ∀ k body, .type k body ∈ pre → Script.isOutermost s k = false)
    (hm : m.span.start < j.source.size) {p q : Pen}
    (hrun : j.run (Script.token "\x7b" ++ Script.ofMembers s owner .priv (pre ++ m :: post)) p
      = .ok q) :
    ∃ before start after,
      j.run (Script.token "\x7b" ++ Script.ofMembers s owner .priv pre) p = .ok before ∧
      Ink.sinceWord (j.inks (Script.token "\x7b" ++ Script.ofMembers s owner .priv pre) p) = [] ∧
      j.run (Script.labelFor s owner (Script.lastAccess owner .priv pre) m ++ [Stroke.copySpace])
        before = .ok start ∧
      Lead j (if Script.memberAccess owner m = Script.lastAccess owner .priv pre then none
        else some (Script.memberAccess owner m)) before start ∧
      start.position = m.span.start ∧ j.run (Script.ofMember s m) start = .ok after ∧
      j.run (Script.token "\x7b" ++ Script.ofMembers s owner .priv (pre ++ [m])) p = .ok after := by
  have hwords : EndsWord j (Script.token "\x7b" ++ Script.ofMembers s owner .priv pre) := by
    by_cases hpre : pre = []
    · subst hpre
      rw [Script.ofMembers, List.append_nil]
      exact .token (by decide)
    · exact (EndsWord.ofMembers hcpp hheader owner .priv hpre hinner).append
  have hbody : ∀ post, Script.token "\x7b" ++ Script.ofMembers s owner .priv (pre ++ m :: post)
      = Script.token "\x7b" ++ Script.ofMembers s owner .priv pre
        ++ (Script.labelFor s owner (Script.lastAccess owner .priv pre) m ++ [Stroke.copySpace]
          ++ Script.ofMember s m) ++ Script.ofMembers s owner (Script.memberAccess owner m) post := by
    intro post
    simp [Script.ofMembers_append, Script.ofMembers]
  rw [hbody] at hrun
  obtain ⟨after, hafter, -⟩ := Job.run_append_eq_ok.1 hrun
  obtain ⟨before, hbefore, hlast⟩ := Job.run_append_eq_ok.1 hafter
  obtain ⟨start, hlabel, hmember⟩ := Job.run_append_eq_ok.1 hlast
  have hstart := start_of_ofMember hmember
  refine ⟨before, start, after, hbefore, hwords hbefore [], hlabel,
    lead_of_run hcpp hlabel (hstart ▸ hm), hstart, hmember, ?_⟩
  rw [hbody, Script.ofMembers, List.append_nil]
  exact hafter

end Transcribe
