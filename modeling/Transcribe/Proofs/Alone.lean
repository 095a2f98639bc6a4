/-
  Transcribe.Proofs.Alone — a type in its file and the type by itself.

  The file of a type holds what stands in front of it, the type, and an end. By itself a type is
  written as part of the first type of its source (`firstSetting`), with the space and comments
  that belong to it.

  What is written of the type does not depend on what stands in front: a column matters only to a
  label on a line of its own, and the line break in front of the label makes the column known. So
  a script is read apart from the output before it. `Draws` says that from `o` it writes `t` and
  ends at `o'` over any output that is measured as the target's is, and `Redraws` that what it
  wrote once it draws from everywhere in the same place. The members of a type redraw one by one.
  The end of a type is cut in two (`upToBrace`, `behindBrace`), since behind the brace a type that
  stands by itself may take the space on its line.
  - `draws_label`: a label in front of its member.
  - `redraws_ofMember`: a member that was written once.
  - `file_eq_node`: the file is its lead, the type by itself, and its end (`Job.fileEnd`): a line
    break unless the last line has ended, and the end of a namespace.
-/

import Transcribe.Proofs.Ink
import Transcribe.Proofs.Keep.Files
import Transcribe.Proofs.Lines
import Transcribe.Proofs.Methods

namespace Transcribe

open Text (Span Source Sink Ruler byteLength isBreak)
open Java (Node Access TypeHead TypeDecl Member Field Method CompilationUnit)
open Outline (Reads)

variable {q : Pen} {ds ds' : List TypeDecl}

/-! ## Columns and lines -/

namespace Text

/-- Behind a line break it does not matter where the text began. -/
theorem Ruler.through_of_break (r : Ruler) (a b : Nat) {cs : List Char}
    (h : ∃ c ∈ cs, isBreak c = true) : r.through a cs = r.through b cs := by
  induction cs generalizing a b with
  | nil => obtain ⟨c, hc, -⟩ := h; cases hc
  | cons c cs ih =>
    by_cases hc : isBreak c = true
    · simp [Ruler.through, Ruler.step, hc]
    · obtain ⟨x, hx, hbreak⟩ := h
      rcases List.mem_cons.1 hx with rfl | hx
      · exact absurd hbreak hc
      · exact ih _ _ ⟨x, hx, hbreak⟩

namespace Source

variable {s : Source} {o : Nat}

/-- Text without a line break stays on its line. -/
theorem lineNumber_eq {g r : List Char} (h : s.rest? o = some (g ++ r))
    (hg : ∀ c ∈ g, isBreak c = false) : s.lineNumber o = s.lineNumber (o + byteLength g) := by
  refine (lineNumber_eq_iff (Nat.le_add_right o _)).2 ?_
  rintro ⟨x, hx, hlow, hhigh⟩
  have hlt := hx.start_lt_stop
  -- The last byte of a terminator that ends behind `o` would stand in `g`.
  obtain ⟨d, c, r', hchars, hd, hc⟩ := hx.exists_break (n := x.stop - 1) (by omega) (by omega)
  obtain ⟨b, hb, rfl⟩ := rest?_eq_some_iff.1 h
  have hmem : c ∈ g := mem_of_append_eq (hb.symm.trans hchars) (by omega) (by omega)
  rw [hg c hmem] at hc
  cases hc

theorem slice?_trans {a b c : Nat} {v w : List Char} (h : s.slice? ⟨a, b⟩ = some v)
    (h' : s.slice? ⟨b, c⟩ = some w) : s.slice? ⟨a, c⟩ = some (v ++ w) := by
  obtain ⟨⟨r, hr⟩, hb⟩ := exists_rest_of_slice? h
  obtain ⟨⟨r', hr'⟩, hc⟩ := exists_rest_of_slice? h'
  dsimp only at hr hb hr' hc
  obtain rfl : r = w ++ r' := Option.some.inj ((rest?_add hr).symm.trans (hb ▸ hr'))
  refine slice?_eq_some (by rwa [List.append_assoc]) ?_
  rw [byteLength_append]
  omega

/-- Where the next token is on another line, there is a line break on the way to the end of the line
and over the break there. -/
theorem exists_break (h : s.lineNumber o ≠ s.lineNumber (s.skipSpace false o)) {v w : List Char}
    (hv : s.slice? ⟨o, s.skipSpace true o⟩ = some v)
    (hw : s.slice? ⟨s.skipSpace true o, s.skipBreak (s.skipSpace true o)⟩ = some w) :
    ∃ c ∈ v ++ w, isBreak c = true := by
  obtain ⟨⟨r, hr⟩, hstop⟩ := exists_rest_of_slice? hv
  obtain ⟨⟨r', hr'⟩, hstop'⟩ := exists_rest_of_slice? hw
  dsimp only at hr hstop hr' hstop'
  have hrest : s.rest? (s.skipSpace true o) = some r := hstop ▸ rest?_add hr
  by_contra hnone
  have hplain : ∀ c ∈ v, isBreak c = false := fun c hc => by
    by_contra hbreak
    exact hnone ⟨c, List.mem_append_left w hc, by simpa using hbreak⟩
  -- The walk to the end of the line did not end at a break, so it went over the whole gap.
  obtain ⟨g, x, hcut, hlen, hend⟩ := spaceLength_toBreak rfl .space (v ++ r)
  have hx : s.rest? (s.skipSpace true o) = some x := by
    have hskip : s.skipSpace true o = o + byteLength g := by
      simp only [skipSpace, forward, hr, hlen]
    rw [hskip]
    exact rest?_add (hcut ▸ hr)
  rcases hend with ⟨c, x', rfl, hc⟩ | hstay
  · obtain ⟨t, y, hsplit, hbreak, hone⟩ := oneBreak_of_break (t := x') hc
    have hmove : s.skipBreak (s.skipSpace true o) = s.skipSpace true o + byteLength t := by
      simp only [skipBreak, forward, hx, hbreak]
    have hslice : s.slice? ⟨s.skipSpace true o, s.skipBreak (s.skipSpace true o)⟩ = some t :=
      slice?_eq_some (hsplit ▸ hx) hmove
    obtain rfl : w = t := Option.some.inj (hw.symm.trans hslice)
    cases hone with
    | lf | crlf => exact hnone ⟨'\n', by simp, rfl⟩
    | cr => exact hnone ⟨'\r', by simp, rfl⟩
  · have hsame : s.skipSpace false o = s.skipSpace true o := by
      have hforward : s.forward (spaceLength false .space) (s.skipSpace true o)
          = s.skipSpace true o + spaceLength false .space x := by rw [forward, hx]
      rw [← skipSpace_skipSpace true ⟨_, hr⟩]
      exact hforward.trans (by rw [hstay, Nat.add_zero])
    rw [hsame, hstop] at h
    exact h (lineNumber_eq hr hplain)

end Source

end Text

/-! ## What strokes leave alone -/

theorem Pen.Grows.fresh {p : Pen} (h : p.Grows q) (hp : p.Fresh) : q.Fresh :=
  ⟨h.dedent.trans hp.1, h.trailing hp.2⟩

theorem Script.isSteady_of_isLocal {r : Script} (h : r.all Stroke.isLocal = true) :
    r.all Stroke.isSteady = true := by
  rw [List.all_eq_true] at h ⊢
  intro st hst
  have := h st hst
  cases st <;> first | rfl | cases this

theorem Script.steady_ofPrologue (s : Setting) (u : CompilationUnit) :
    (ofPrologue s u).all Stroke.isSteady = true := by
  have hif : ∀ (c : Bool) {r r' : Script}, r.all Stroke.isSteady = true →
      r'.all Stroke.isSteady = true → (if c then r else r').all Stroke.isSteady = true := by
    intro c r r' hr hr'
    cases c
    · exact hr'
    · exact hr
  have hpackage : ∀ k, (ofPackage s k).all Stroke.isSteady = true := fun k =>
    isSteady_of_isLocal (isLocal_of_isLevel (admits_ofNode s (n := .package k) nofun))
  have himport : ∀ i, (ofImport s i).all Stroke.isSteady = true := fun i =>
    isSteady_of_isLocal (admits_ofNode s (n := .importing i) nofun)
  unfold ofPrologue
  simp only [List.all_append, List.all_flatMap, Bool.and_eq_true]
  refine ⟨⟨⟨?_, ?_⟩, hif _ rfl rfl⟩, ?_⟩
  · refine List.all_eq_true.2 fun k _ => Bool.and_eq_true_iff.2 ⟨?_, hif _ rfl rfl⟩
    rw [List.all_cons, hpackage]
    rfl
  · refine List.all_eq_true.2 fun i _ => Bool.and_eq_true_iff.2 ⟨?_, hif _ rfl rfl⟩
    rw [List.all_cons, himport]
    rfl
  · cases u.package? with
    | none => exact hif _ rfl rfl
    | some k => exact hif _ rfl (hif _ rfl rfl)

/-! ## What a script draws -/

namespace Job

variable {j : Job} {p q : Pen} {r r' : Script} {o o' o'' : Nat} {t t' : String}

/-- From `o` a script writes `t` and ends at `o'`, over any output that is measured as the target's
is. -/
def Draws (j : Job) (r : Script) (o : Nat) (t : String) (o' : Nat) : Prop :=
  ∀ p : Pen, p.position = o → p.Fresh → p.sink.ruler = j.pen.sink.ruler →
    ∃ q, j.run r p = .ok q ∧ q.position = o' ∧ q.Fresh ∧ q.sink = p.sink.write t

theorem Draws.append (h : j.Draws r o t o') (h' : j.Draws r' o' t' o'') :
    j.Draws (r ++ r') o (t ++ t') o'' := by
  intro p hp hfresh hruler
  obtain ⟨mid, hmid, hpos, hfresh', hsink⟩ := h p hp hfresh hruler
  obtain ⟨q, hq, hpos', hfresh'', hsink'⟩ := h' mid hpos hfresh' (by rw [hsink]; exact hruler)
  exact ⟨q, run_append_eq_ok.2 ⟨mid, hmid, hq⟩, hpos', hfresh'',
    by rw [hsink', hsink, Text.Sink.write_write]⟩

theorem Draws.of_run (h : j.Draws r o t o') (hp : p.position = o) (hfresh : p.Fresh)
    (hruler : p.sink.ruler = j.pen.sink.ruler) (hrun : j.run r p = .ok q) :
    q.position = o' ∧ q.Fresh ∧ q.sink = p.sink.write t := by
  obtain ⟨q', hq, hrest⟩ := h p hp hfresh hruler
  obtain rfl := Except.ok.inj (hrun.symm.trans hq)
  exact hrest

theorem draws_of_emits (hr : r.all Stroke.isSteady = true) (h : j.Emits r o t o') :
    j.Draws r o t o' := by
  intro p hp hfresh _
  obtain ⟨q, hq, hpos, -, -, htext⟩ := h p hp hfresh.1
  have hgrows := grows_of_run hr hq
  obtain ⟨t', ht'⟩ := hgrows.sink
  obtain rfl : t' = t := by
    rw [ht', Text.Sink.write_text] at htext
    exact String.append_right_inj _ |>.1 htext
  exact ⟨q, hq, hpos, hgrows.fresh hfresh, ht'⟩

def Redraws (j : Job) (r : Script) : Prop :=
  ∀ p q : Pen, p.Fresh → p.sink.ruler = j.pen.sink.ruler → j.run r p = .ok q →
    ∃ t, j.Draws r p.position t q.position

theorem Redraws.append (h : j.Redraws r) (h' : j.Redraws r') : j.Redraws (r ++ r') := by
  intro p q hfresh hruler hrun
  obtain ⟨mid, hmid, hrest⟩ := run_append_eq_ok.1 hrun
  obtain ⟨t, ht⟩ := h p mid hfresh hruler hmid
  obtain ⟨hpos, hfresh', hsink⟩ := ht.of_run rfl hfresh hruler hmid
  obtain ⟨t', ht'⟩ := h' mid q hfresh' (by rw [hsink]; exact hruler) hrest
  exact ⟨t ++ t', ht.append ht'⟩

section

variable (hx : j.profile.expandTabs = false)
include hx

theorem redraws_local (hr : r.all Stroke.isLocal = true) : j.Redraws r := by
  intro p q hfresh _ hrun
  obtain ⟨t, ht⟩ := emits_of_run hx hr hfresh hrun
  exact ⟨t, draws_of_emits (Script.isSteady_of_isLocal hr) ht⟩

theorem copySpace_eq {b : Bool} {cs : List Char} (hp : p.Fresh)
    (hcs : j.source.slice? ⟨p.position, j.source.skipSpace b p.position⟩ = some cs) :
    j.copySpace b p
      = .ok ((p.write (String.ofList cs)).moveTo (j.source.skipSpace b p.position)) := by
  simp only [copySpace, hcs, writeSpace_eq hx hp.1]

/-- A label in front of the next token. On a line of its own it stands behind a line break, so where
the output was before does not matter. -/
theorem draws_label {access : Access} {member owner : Nat}
    (hnext : j.source.skipSpace false p.position = member)
    (h : j.stroke p (.label access member owner) = .ok q) :
    ∃ t, j.Draws [.label access member owner] p.position t q.position := by
  rcases label_ok h with ⟨hline, mid, hcopy, rfl⟩ | ⟨hline, mid, mid', column, hcopy, hbreak, hcolumn, rfl⟩
  · obtain ⟨cs, hcs, rfl⟩ := copySpace_ok hcopy
    refine ⟨String.ofList cs ++ (Java.word access ++ ":" ++ " "), fun p' hpos hfresh _ => ?_⟩
    have hstroke : j.stroke p' (.label access member owner)
        = .ok (((p'.write (String.ofList cs)).moveTo (j.source.skipSpace false p.position)).write
          (Java.word access ++ ":" ++ " ")) := by
      rw [← hpos] at hcs hline ⊢
      rw [stroke, label, if_pos hline, copySpace_eq hx hfresh hcs]
      rfl
    exact ⟨_, run_singleton.trans hstroke, rfl, hfresh, Text.Sink.write_write _ _ _⟩
  · obtain ⟨cs, hcs, rfl⟩ := copySpace_ok hcopy
    obtain ⟨cs', hcs', rfl⟩ := copyBreak_ok hbreak
    rw [Pen.moveTo_position] at hcs'
    have hreset := fun a b => Ruler.through_of_break j.pen.sink.ruler a b
      (Source.exists_break (hnext ▸ hline) hcs hcs')
    refine ⟨String.ofList cs ++ String.ofList cs'
      ++ String.ofList (List.replicate (column - j.pen.sink.ruler.through 0 (cs ++ cs')) ' ')
      ++ (Java.word access ++ ":") ++ j.source.terminator, fun p' hpos hfresh hruler => ?_⟩
    let mid : Pen := ((p'.write (String.ofList cs)).write (String.ofList cs')).moveTo
      (j.source.skipBreak (j.source.skipSpace true p.position))
    have hstroke : j.stroke p' (.label access member owner) = .ok (j.newline { mid with
        sink := (mid.sink.padTo column).write (Java.word access ++ ":") }) := by
      rw [← hpos] at hcs hcs' hline
      have hcopy' := copySpace_eq hx hfresh hcs
      have hbreak' : j.copyBreak ((p'.write (String.ofList cs)).moveTo
          (j.source.skipSpace true p'.position)) = .ok mid := by
        simp only [copyBreak, Pen.moveTo_position, hcs', mid, ← hpos]
        rfl
      rw [stroke, label, if_neg hline, hcopy']
      simp only [bind, Except.bind, hbreak', hcolumn]
      rfl
    have hcolumns : mid.sink.column = j.pen.sink.ruler.through 0 (cs ++ cs') := by
      rw [← hreset p'.sink.column 0]
      simp [mid, Sink.write, Ruler.through, hruler]
    refine ⟨_, run_singleton.trans hstroke, rfl, hfresh, ?_⟩
    rw [newline, Pen.write_sink, Sink.padTo, hcolumns]
    simp only [mid, Sink.writeSpaces, Pen.moveTo_sink, Pen.write_sink, Text.Sink.write_write]

/-- A label in front of a node. -/
theorem redraws_label {access : Access} {owner : Nat} {span : Span} {body : Script}
    (h : j.Redraws (.copySpace :: Script.framed span body)) :
    j.Redraws (.label access span.start owner :: .copySpace :: Script.framed span body) := by
  intro p q hfresh hruler hrun
  obtain ⟨mid, hlabel, hrest⟩ := run_cons_eq_ok.1 hrun
  obtain ⟨mid', hcopy, hnode⟩ := run_cons_eq_ok.1 hrest
  obtain ⟨-, hstart, -⟩ := framed_ok hnode
  -- The label stays in the gap in front of the node, which starts with the next token.
  have hgap : j.source.InGap p.position mid.position := by
    have hboundary : ∀ {a : Span} {w}, j.source.slice? a = some w → j.source.Boundary a.start :=
      fun hw => (Source.exists_rest_of_slice? hw).1.elim fun _ hr => ⟨_, hr⟩
    rcases label_ok hlabel with ⟨-, x, hx', rfl⟩ | ⟨-, x, y, column, hx', hy, -, rfl⟩
    · obtain ⟨cs, hcs, rfl⟩ := copySpace_ok hx'
      exact Source.inGap_skipSpace false (hboundary hcs)
    · obtain ⟨cs, hcs, rfl⟩ := copySpace_ok hx'
      obtain ⟨cs', hcs', rfl⟩ := copyBreak_ok hy
      exact (Source.inGap_skipSpace true (hboundary hcs)).trans
        (Source.inGap_skipBreak (hboundary hcs'))
  have hnext : j.source.skipSpace false p.position = span.start := by
    rw [← Source.skipSpace_eq_of_inGap hgap, ← copySpace_position hcopy, hstart]
  obtain ⟨t, ht⟩ := draws_label hx hnext hlabel
  obtain ⟨-, hfresh', hsink⟩ := ht.of_run rfl hfresh hruler (run_singleton.trans hlabel)
  obtain ⟨t', ht'⟩ := h mid q hfresh' (by rw [hsink]; exact hruler) hrest
  exact ⟨t ++ t', ht.append ht'⟩

end

end Job

/-! ## Members -/

namespace Script

def upToBrace (s : Setting) (h : TypeHead) (body : List Member) : Script :=
  .enter h.span :: ofHead s h ++ ofMembers { s with enclosing? := some h } h .priv body
    ++ [.copySpace, .swap "\x7d" (if s.isCpp then "\x7d;" else "\x7d")]

def behindBrace (takes : Bool) (span : Span) : Script :=
  (if takes then [.copyLine, .trail] else []) ++ [.leave span]

theorem ofMember_type (s : Setting) (h : TypeHead) (body : List Member) :
    ofMember s (.type h body)
      = upToBrace s h body ++ behindBrace (s.isCpp && isOutermost s h) h.span := by
  simp [ofMember, framed, upToBrace, behindBrace, ofEnd]

theorem exists_framed (s : Setting) (m : Member) : ∃ body, ofMember s m = framed m.span body := by
  cases m with
  | field f => exact ⟨_, rfl⟩
  | method m => exact ⟨_, rfl⟩
  | type h body => exact ⟨_, by rw [ofMember]; rfl⟩

end Script

namespace Job

variable {j : Job} (hx : j.profile.expandTabs = false)
include hx

theorem redraws_upToBrace (s : Setting) (h : TypeHead) {body : List Member} {o' : Nat}
    (hr : Reads j.source (Outline.ofHead h ++ Outline.ofMembers body ++ [Mark.token "\x7d"])
      h.span.start o')
    (hmembers : ∀ {x y}, Reads j.source (Outline.ofMembers body) x y → h.span.start < x →
      j.Redraws (Script.ofMembers { s with enclosing? := some h } h .priv body)) :
    j.Redraws (Script.upToBrace s h body) := by
  obtain ⟨y, hr, -⟩ := Outline.reads_append.1 hr
  obtain ⟨x, hhead, hbody⟩ := Outline.reads_append.1 hr
  have hsolid : (Outline.ofHead h).solid = true := by simp [Outline.ofHead]
  have hlt : h.span.start < x :=
    Nat.lt_of_le_of_lt (Source.le_skipSpace false _) (hhead.skipSpace_lt hsolid)
  have hstart : j.Redraws (.enter h.span :: Script.ofHead s h) :=
    redraws_local hx (by rw [List.all_cons, Script.local_ofHead]; rfl)
  exact (hstart.append (hmembers hbody hlt)).append (redraws_local hx rfl)

mutual

/-- A member of a type that starts in front of it. -/
theorem redraws_ofMember (s : Setting) {owner : TypeHead} (hs : s.enclosing? = some owner)
    (m : Member) {o o' : Nat} (hr : Reads j.source (Outline.ofMember m) o o')
    (hlt : owner.span.start < o) : j.Redraws (Script.ofMember s m) := by
  cases m with
  | field f => exact redraws_local hx (admits_ofNode s (n := .field f) nofun)
  | method m => exact redraws_local hx (admits_ofNode s (n := .method m) nofun)
  | type h body =>
    rw [Outline.ofMember] at hr
    obtain ⟨-, hstart, hr, -⟩ := Outline.reads_framed.1 hr
    have hle := Source.le_skipSpace (s := j.source) false o
    have hinner : Script.isOutermost s h = false := by
      simp only [Script.isOutermost, hs, Option.all_some, beq_eq_false_iff_ne, ne_eq]
      intro hspan
      rw [hspan] at hlt
      omega
    rw [Script.ofMember_type, hinner, Bool.and_false]
    have hbody := redraws_upToBrace hx s h hr fun hbody hlt =>
      redraws_ofMembers { s with enclosing? := some h } rfl .priv body hbody hlt
    exact hbody.append (redraws_local hx rfl)

theorem redraws_ofMembers (s : Setting) {owner : TypeHead} (hs : s.enclosing? = some owner)
    (current : Access) (ms : List Member) {o o' : Nat}
    (hr : Reads j.source (Outline.ofMembers ms) o o') (hlt : owner.span.start < o) :
    j.Redraws (Script.ofMembers s owner current ms) := by
  cases ms with
  | nil => exact redraws_local hx rfl
  | cons m ms =>
    rw [Outline.ofMembers] at hr
    obtain ⟨x, hm, hms⟩ := Outline.reads_append.1 hr
    have hmember : j.Redraws (.copySpace :: Script.ofMember s m) :=
      (redraws_local hx (r := [.copySpace]) rfl).append (redraws_ofMember s hs m hm hlt)
    have hrest := redraws_ofMembers s hs (Script.memberAccess owner m) ms hms
      (Nat.lt_of_lt_of_le hlt hm.le)
    rw [Script.ofMembers]
    refine .append ?_ hrest
    unfold Script.labelFor
    split
    · obtain ⟨r, hframed⟩ := Script.exists_framed s m
      rw [hframed] at hmember ⊢
      exact redraws_label hx hmember
    · exact hmember

end

end Job

/-! ## The end of a type -/

namespace Job

variable {j : Job} {p q : Pen}

/-- Whether a type takes the space behind it or leaves it to what comes next, it is written. -/
theorem behindBrace_ok (hx : j.profile.expandTabs = false) {takes : Bool} {span : Span}
    (hp : p.Fresh) (h : j.run (Script.behindBrace takes span ++ [Stroke.copyTrail]) p = .ok q) :
    ∃ cs, j.source.slice? ⟨p.position, j.source.skipSpace true p.position⟩ = some cs ∧
      q.sink = p.sink.write (String.ofList cs) := by
  obtain ⟨mid, hmid, htrail⟩ := run_append_eq_ok.1 h
  rw [run_singleton] at htrail
  cases takes with
  | true =>
    obtain ⟨mid', hcopy, hmid⟩ := run_cons_eq_ok.1 hmid
    obtain ⟨mid'', hset, hmid⟩ := run_cons_eq_ok.1 hmid
    obtain ⟨cs, hcs, rfl⟩ := copySpace_ok hcopy
    obtain rfl := Except.ok.inj hset
    have hleave := run_singleton.symm.trans hmid
    rw [stroke] at hleave
    obtain ⟨rfl, -⟩ := leave_eq_ok hleave
    obtain rfl := Except.ok.inj htrail
    exact ⟨cs, hcs, by rw [writeSpace_eq hx hp.1]; rfl⟩
  | false =>
    have hleave : j.leave span p = .ok mid := run_singleton.symm.trans hmid
    obtain ⟨rfl, -⟩ := leave_eq_ok hleave
    have hnot : p.note.trailing = false := hp.2
    rw [stroke, hnot] at htrail
    obtain ⟨cs, hcs, rfl⟩ := copySpace_ok htrail
    have hdedent : p.note.dedent = 0 := hp.1
    exact ⟨cs, hcs, by rw [writeSpace_eq hx hdedent]; rfl⟩

end Job

/-! ## Files and nodes -/

def Job.fileEnd (j : Job) (u : CompilationUnit) (t : String) : String :=
  (if j.pen.sink.ruler.through 0 t.toList = 0 then "" else j.source.terminator)
    ++ if j.profile.isCpp && u.package?.isSome then "\x7d" ++ j.source.terminator else ""

/-- What stands in a file before the text of the type at an index: package and imports or, where there
are none, all of the source that does not belong to the first type. -/
def Job.IsLead (j : Job) (u : CompilationUnit) (index : Nat) (d : TypeDecl) (lead : String) : Prop :=
  if index = 0 ∧ u.package? = none ∧ u.imports = [] then
    j.source.slice? ⟨0, j.source.leadStart d.head.span.start⟩ = some lead.toList
  else j.text (Script.ofPrologue (.ofProfile j.profile) u) = .ok lead

namespace Job

variable {j : Job} {u : CompilationUnit} {d : TypeDecl}

theorem decl_start (hu : Faithful j.source u) (hd : u.types = ds ++ d :: ds') :
    j.source.Boundary d.head.span.start ∧
      j.source.skipSpace false d.head.span.start = d.head.span.start :=
  hu.start (decl_mem_descendants (u := u) (d := d) (by simp [hd]))

theorem epilogue_ok {p : Pen} {t : String} (hsink : p.sink = j.pen.sink.write t)
    (h : j.run (Script.ofEpilogue (.ofProfile j.profile) u) p = .ok q) :
    q.sink.text = t ++ j.fileEnd u t := by
  obtain ⟨mid, hclose, hrest⟩ := run_cons_eq_ok.1 h
  have hcolumn : p.sink.column = j.pen.sink.ruler.through 0 t.toList := by
    rw [hsink]
    rfl
  have htext : p.sink.text = t := by
    rw [hsink, Text.Sink.write_text]
    exact String.empty_append
  have hmid : mid.sink.text = t
      ++ if j.pen.sink.ruler.through 0 t.toList = 0 then "" else j.source.terminator := by
    obtain rfl := Except.ok.inj hclose
    rw [hcolumn]
    split
    · rw [htext, String.append_empty]
    · rw [Nat.repeat, Nat.repeat, newline, Pen.write_sink, Text.Sink.write_text, htext]
  have hcpp : (Setting.ofProfile j.profile).isCpp = j.profile.isCpp := rfl
  rw [hcpp] at hrest
  rw [fileEnd, ← String.append_assoc, ← hmid]
  split at hrest
  · rename_i hnamespace
    obtain rfl := Except.ok.inj hrest
    rw [if_pos hnamespace]
    simp [newline, String.append_assoc]
  · rename_i hnone
    obtain rfl := Except.ok.inj hrest
    rw [if_neg hnone, String.append_empty]

/-- The space in front of a type, cut where that begins which belongs to the type. -/
theorem exists_lead (hu : Faithful j.source u) (hd : u.types = ds ++ d :: ds') {p mid : Pen}
    (hprologue : j.run (Script.ofPrologue (.ofProfile j.profile) u) j.pen = .ok p)
    (hlead : j.run (Output.leadScript u ds.length d) p = .ok mid) {w : List Char}
    (hw : j.source.slice? ⟨mid.position, d.head.span.start⟩ = some w) :
    ∃ lead cs, j.IsLead u ds.length d lead ∧
      j.source.slice? ⟨j.source.leadStart d.head.span.start, d.head.span.start⟩ = some cs ∧
      p.sink.write (String.ofList w) = j.pen.sink.write (lead ++ String.ofList cs) := by
  have hgap := Source.inGap_leadStart (decl_start hu hd).1
  have hboundary := Source.boundary_of_inGap_left hgap
  obtain ⟨cs, hcs⟩ := Source.exists_slice hboundary hgap.boundary hgap.le
  unfold Output.leadScript at hlead
  split at hlead
  · rename_i hfirst
    simp only [Bool.and_eq_true, beq_iff_eq, Option.isNone_iff_eq_none, List.isEmpty_iff] at hfirst
    obtain ⟨⟨hindex, hpackage⟩, himports⟩ := hfirst
    obtain rfl := Except.ok.inj hlead
    have hnone : Script.ofPrologue (.ofProfile j.profile) u = [] := by
      simp [Script.ofPrologue, Script.lineOpen, hpackage, himports]
    rw [hnone] at hprologue
    obtain rfl := Except.ok.inj hprologue
    obtain ⟨v, hv⟩ := Source.exists_slice Source.boundary_zero hboundary (Nat.zero_le _)
    have hcut := Source.slice?_trans hv hcs
    obtain rfl : w = v ++ cs := Option.some.inj (hw.symm.trans hcut)
    refine ⟨String.ofList v, cs, ?_, hcs, by rw [String.ofList_append]⟩
    rw [IsLead, if_pos ⟨hindex, hpackage, himports⟩, String.toList_ofList]
    exact hv
  · rename_i hlater
    obtain rfl := Except.ok.inj hlead
    obtain rfl : w = cs := Option.some.inj (hw.symm.trans hcs)
    obtain ⟨t, ht⟩ := (grows_of_run (Script.steady_ofPrologue _ u) hprologue).sink
    refine ⟨t, w, ?_, hcs, by rw [ht, Text.Sink.write_write]⟩
    rw [IsLead, if_neg (by simpa [and_assoc] using hlater), text, hprologue]
    simp only [ht, Text.Sink.write_text]
    exact congrArg _ String.empty_append

/-- What a type's file holds in front of the type, and where the pen stands then. -/
theorem lead_ok (hu : Faithful j.source u) (hx : j.profile.expandTabs = false)
    (hd : u.types = ds ++ d :: ds')
    (h : j.run (Script.ofPrologue (.ofProfile j.profile) u ++ Output.leadScript u ds.length d
      ++ [Stroke.copySpace]) j.pen = .ok q) :
    ∃ lead cs, j.IsLead u ds.length d lead ∧
      j.source.slice? ⟨j.source.leadStart d.head.span.start, d.head.span.start⟩ = some cs ∧
      q.Fresh ∧ q.position = d.head.span.start ∧
      q.sink = j.pen.sink.write (lead ++ String.ofList cs) := by
  obtain ⟨mid, hlead, hcopy⟩ := run_append_eq_ok.1 h
  obtain ⟨p, hprologue, hlead⟩ := run_append_eq_ok.1 hlead
  obtain ⟨mid', hlead', hgap⟩ := run_leadScript hu hd p
  obtain rfl := Except.ok.inj (hlead.symm.trans hlead')
  have hgrows := grows_of_run (Script.steady_ofPrologue _ u) hprologue
  have hmid : mid = p.moveTo mid.position := by
    unfold Output.leadScript at hlead
    split at hlead <;> (obtain rfl := Except.ok.inj hlead; rfl)
  have hfresh : mid.Fresh := by
    rw [hmid]
    exact hgrows.fresh ⟨rfl, rfl⟩
  have hnext : j.source.skipSpace false mid.position = d.head.span.start := by
    rw [← Source.skipSpace_eq_of_inGap hgap, (decl_start hu hd).2]
  rw [run_singleton] at hcopy
  obtain ⟨w, hw, rfl⟩ := copySpace_ok hcopy
  rw [hnext] at hw
  obtain ⟨lead, cs, hislead, hcs, htext⟩ := exists_lead hu hd hprologue hlead hw
  refine ⟨lead, cs, hislead, hcs, (grows_writeSpace w mid).fresh hfresh, hnext, ?_⟩
  rw [Pen.moveTo_sink, writeSpace_eq hx hfresh.1, Pen.write_sink, hmid, Pen.moveTo_sink, htext]

def firstSetting (p : Target.Profile) (u : CompilationUnit) : Setting :=
  { Setting.ofProfile p with enclosing? := u.types.head?.map (·.head) }

/-- What belongs to a type in front of it. -/
theorem nodeLead_ok (hu : Faithful j.source u) (hx : j.profile.expandTabs = false)
    (hd : u.types = ds ++ d :: ds') {gap : List Char}
    (hgap : j.source.slice? ⟨j.source.leadStart d.head.span.start, d.head.span.start⟩ = some gap)
    (h : j.run [.moveToLead d.head.span.start, .copySpace] j.pen = .ok q) :
    q.Fresh ∧ q.position = d.head.span.start ∧ q.sink = j.pen.sink.write (String.ofList gap) := by
  obtain ⟨hb, hfix⟩ := decl_start hu hd
  have hnext : j.source.skipSpace false (j.source.leadStart d.head.span.start)
      = d.head.span.start := by
    rw [← Source.skipSpace_eq_of_inGap (Source.inGap_leadStart hb), hfix]
  obtain ⟨p, hmove, hcopy⟩ := run_cons_eq_ok.1 h
  obtain rfl := Except.ok.inj hmove
  rw [run_singleton] at hcopy
  obtain ⟨w, hw, rfl⟩ := copySpace_ok hcopy
  rw [Pen.moveTo_position, hnext] at hw
  obtain rfl := Option.some.inj (hw.symm.trans hgap)
  refine ⟨(grows_writeSpace w _).fresh ⟨rfl, rfl⟩, hnext, ?_⟩
  rw [Pen.moveTo_sink, writeSpace_eq hx rfl]
  rfl

theorem nodeScript_decl (p : Target.Profile) (u : CompilationUnit) (d : TypeDecl) :
    Output.nodeScript p u (.decl d) = [Stroke.moveToLead d.head.span.start, .copySpace]
      ++ (Script.ofDecl (firstSetting p u) d ++ [Stroke.copyTrail]) :=
  rfl

/-- Where the declaration of a type is written, so is the type by itself. -/
theorem node_runs (hu : Faithful j.source u) (hd : u.types = ds ++ d :: ds')
    (h : j.run (Output.declarationScript j.profile u ds.length d) j.pen = .ok q) :
    ∃ q', j.run (Output.nodeScript j.profile u (.decl d)) j.pen = .ok q' := by
  have hmem := decl_mem_descendants (u := u) (d := d) (by simp [hd])
  have hgap := Source.inGap_leadStart (decl_start hu hd).1
  have hnone : faults j.profile.isCpp
      (writtenMember (!j.profile.isCpp) (.type d.head d.body)) = [] := by
    have hstopped := declarationScript_stoppedBy hu hd
    unfold StoppedBy at hstopped
    rw [h] at hstopped
    exact (List.append_eq_nil_iff.1 hstopped.2).2
  obtain ⟨o', hr⟩ := hu.reads_node hmem (by simp) hgap
  have hcpp : (firstSetting j.profile u).isCpp = j.profile.isCpp := rfl
  have hbodies : (firstSetting j.profile u).keepsBodies = !j.profile.isCpp :=
    keepsBodies_ofProfile j.profile
  rw [← hbodies, ← hcpp] at hnone
  have hstopped := (Tracks.ofMember (firstSetting j.profile u) (.type d.head d.body)).space.stoppedBy hr
    (p := j.pen.moveTo (j.source.leadStart d.head.span.start))
    (a := .within) (.refl (Source.boundary_of_inGap_left hgap))
  rw [hnone] at hstopped
  have hnode : j.StoppedBy ([] ++ []) (Output.nodeScript j.profile u (.decl d)) j.pen := by
    refine StoppedBy.after (r := [.moveToLead d.head.span.start]) rfl ?_
    exact hstopped.append fun q' _ hb => Tracks.copyTrail.stoppedBy_nil hb
  exact hnode.exists_ok

theorem redraws_decl (hu : Faithful j.source u) (hx : j.profile.expandTabs = false)
    (hd : u.types = ds ++ d :: ds') (s : Setting) :
    j.Redraws (Script.upToBrace s d.head d.body) := by
  have hmem := decl_mem_descendants (u := u) (d := d) (by simp [hd])
  obtain ⟨o', hr⟩ := hu.reads_node hmem (by simp) (.refl (decl_start hu hd).1)
  obtain ⟨-, -, hr, -⟩ := Outline.reads_framed.1 hr
  exact redraws_upToBrace hx s d.head hr fun hbody hlt =>
    redraws_ofMembers hx { s with enclosing? := some d.head } rfl .priv d.body hbody hlt

/-- The declaration of a type is made of the parts the type by itself is made of. -/
theorem declaration_text (hu : Faithful j.source u) (hx : j.profile.expandTabs = false)
    (hd : u.types = ds ++ d :: ds')
    (h : j.run (Output.declarationScript j.profile u ds.length d) j.pen = .ok q) :
    ∃ lead node, j.IsLead u ds.length d lead ∧ j.nodeText u (.decl d) = .ok node ∧
      q.sink.text = lead ++ node ++ j.fileEnd u (lead ++ node) := by
  obtain ⟨q', hnode⟩ := node_runs hu hd h
  have hnodeText : j.nodeText u (.decl d) = .ok q'.sink.text := by rw [nodeText, text, hnode]
  let s := Setting.ofProfile j.profile
  have hdeclaration : Output.declarationScript j.profile u ds.length d
      = (Script.ofPrologue s u ++ Output.leadScript u ds.length d ++ [Stroke.copySpace])
        ++ (Script.upToBrace s d.head d.body ++ ((Script.behindBrace
          (s.isCpp && Script.isOutermost s d.head) d.head.span ++ [Stroke.copyTrail])
        ++ Script.ofEpilogue s u)) := by
    simp [Output.declarationScript, Script.ofDecl, Script.ofMember_type, s]
  rw [hdeclaration] at h
  obtain ⟨p₁, hlead, h⟩ := run_append_eq_ok.1 h
  obtain ⟨p₂, hbody, h⟩ := run_append_eq_ok.1 h
  obtain ⟨p₃, hend, hepilogue⟩ := run_append_eq_ok.1 h
  obtain ⟨lead, gap, hislead, hgap, hfresh, hpos, hsink⟩ := lead_ok hu hx hd hlead
  have hruler : p₁.sink.ruler = j.pen.sink.ruler := by rw [hsink]; rfl
  obtain ⟨body, hdraws⟩ := redraws_decl hu hx hd s p₁ p₂ hfresh hruler hbody
  obtain ⟨-, hfresh₂, hsink₂⟩ := hdraws.of_run rfl hfresh hruler hbody
  obtain ⟨trail, htrail, hsink₃⟩ := behindBrace_ok hx hfresh₂ hend
  -- The same parts in the type by itself, which shares all up to the brace.
  rw [nodeScript_decl, Script.ofDecl, Script.ofMember_type, List.append_assoc] at hnode
  obtain ⟨n₁, hlead', hnode⟩ := run_append_eq_ok.1 hnode
  obtain ⟨n₂, hbody', hend'⟩ := run_append_eq_ok.1 hnode
  obtain ⟨hfresh', hpos', hsink'⟩ := nodeLead_ok hu hx hd hgap hlead'
  have hruler' : n₁.sink.ruler = j.pen.sink.ruler := by rw [hsink']; rfl
  obtain ⟨hpos₂', hfresh₂', hsink₂'⟩ :=
    hdraws.of_run (hpos'.trans hpos.symm) hfresh' hruler' hbody'
  obtain ⟨trail', htrail', hsink₃'⟩ := behindBrace_ok hx hfresh₂' hend'
  obtain rfl : trail = trail' := by
    rw [hpos₂'] at htrail'
    exact Option.some.inj (htrail.symm.trans htrail')
  have htext : q'.sink.text = String.ofList gap ++ body ++ String.ofList trail := by
    rw [hsink₃', hsink₂', hsink', Text.Sink.write_write, Text.Sink.write_write, Text.Sink.write_text,
      String.append_assoc]
    exact String.empty_append
  have hfile : p₃.sink = j.pen.sink.write (lead ++ q'.sink.text) := by
    rw [hsink₃, hsink₂, hsink, Text.Sink.write_write, Text.Sink.write_write, htext]
    simp only [String.append_assoc]
  exact ⟨lead, _, hislead, hnodeText, epilogue_ok hfile hepilogue⟩

/-- The file with the declaration of the type at an index. -/
theorem declaration_of_files {first index : Nat} {fs : List Output.File}
    (h : j.filesFrom u first ds = .ok fs) (hd : ds[index]? = some d) :
    ∃ f q, fs[if j.profile.isCpp then 2 * index else index]? = some f ∧
      f.name = d.head.name.text ++ "." ++ j.profile.language.extension ∧
      j.run (Output.declarationScript j.profile u (first + index) d) j.pen = .ok q ∧
      f.contents = q.sink.text := by
  induction ds generalizing first index fs with
  | nil => cases hd
  | cons e ds ih =>
    rw [filesFrom] at h
    cases htype : j.typeFiles u first e with
    | error x => simp [htype, bind, Except.bind] at h
    | ok gs =>
      cases hrest : j.filesFrom u (first + 1) ds with
      | error x => simp [htype, hrest, bind, Except.bind] at h
      | ok rest =>
        rw [htype, hrest] at h
        obtain rfl := Except.ok.inj h
        obtain ⟨q, more, hrun, rfl, hlength, -⟩ := typeFiles_eq htype
        cases index with
        | zero =>
          obtain rfl := Option.some.inj hd
          exact ⟨⟨_, _⟩, q, by simp, rfl, hrun, rfl⟩
        | succ index =>
          obtain ⟨g, q', hg, hname', hrun', hcontents'⟩ := ih hrest hd
          refine ⟨g, q', ?_, hname', by rwa [Nat.add_right_comm] at hrun', hcontents'⟩
          rw [← hg, List.cons_append]
          cases hcpp : j.profile.isCpp with
          | true =>
            obtain ⟨x, rfl⟩ := List.length_eq_one_iff.1 (by simpa [hcpp] using hlength)
            simp [Nat.mul_add]
          | false =>
            obtain rfl := List.length_eq_zero_iff.1 (by simpa [hcpp] using hlength)
            simp

end Job

/-- The file of a type is what stands in front of the type, the type as it is by itself, and an end. -/
theorem file_eq_node (j : Job) (u : CompilationUnit) (hu : Faithful j.source u)
    (hx : j.profile.expandTabs = false) {fs : List Output.File} (hfiles : j.files u = .ok fs)
    {index : Nat} {d : TypeDecl} (hd : u.types[index]? = some d) :
    ∃ f lead node, fs[if j.profile.isCpp then 2 * index else index]? = some f ∧
      f.name = d.head.name.text ++ "." ++ j.profile.language.extension ∧
      j.IsLead u index d lead ∧ j.nodeText u (.decl d) = .ok node ∧
      f.contents = lead ++ node ++ j.fileEnd u (lead ++ node) := by
  obtain ⟨f, q, hf, hname, hrun, hcontents⟩ := Job.declaration_of_files hfiles hd
  obtain ⟨hlt, hget⟩ := List.getElem?_eq_some_iff.1 hd
  have htypes : u.types = u.types.take index ++ d :: u.types.drop (index + 1) := by
    rw [← hget, ← List.drop_eq_getElem_cons hlt, List.take_append_drop]
  have hindex : 0 + index = (u.types.take index).length := by
    rw [List.length_take_of_le (Nat.le_of_lt hlt), Nat.zero_add]
  rw [hindex] at hrun
  obtain ⟨lead, node, hlead, hnode, htext⟩ := Job.declaration_text hu hx htypes hrun
  rw [← hindex, Nat.zero_add] at hlead
  exact ⟨f, lead, node, hf, hname, hlead, hnode, hcontents.trans htext⟩

def neighboursText : String :=
  "package p;\nclass A\x7b\x7d//a\n/*b*/ class B\x7b\n\tint n;\n\x7d//c\n"

theorem file_eq_node_sample : ∃ p fs d f lead node, Java.parse "A.java" neighboursText = .ok p ∧
    Faithful p.source p.unit ∧ (Job.mk p.source .cpp).files p.unit = .ok fs ∧
    p.unit.types[1]? = some d ∧ fs[2]? = some f ∧ f.name = d.head.name.text ++ ".h" ∧
    (Job.mk p.source .cpp).IsLead p.unit 1 d lead ∧
    (Job.mk p.source .cpp).nodeText p.unit (.decl d) = .ok node ∧
    f.contents = lead ++ node ++ (Job.mk p.source .cpp).fileEnd p.unit (lead ++ node) := by
  have h : (Java.parse "A.java" neighboursText).toOption.any (fun p =>
      decide (Faithful p.source p.unit) && ((Job.mk p.source .cpp).files p.unit).toOption.isSome &&
      p.unit.types[1]?.isSome) = true := by decide +kernel
  cases hp : Java.parse "A.java" neighboursText with
  | error e =>
    rw [hp] at h
    cases h
  | ok p =>
    simp only [hp, Except.toOption, Option.any_some, Bool.and_eq_true, decide_eq_true_eq] at h
    obtain ⟨⟨hu, hfiles⟩, hd⟩ := h
    obtain ⟨d, hd⟩ := Option.isSome_iff_exists.1 hd
    cases hfs : (Job.mk p.source .cpp).files p.unit with
    | error e =>
      rw [hfs] at hfiles
      cases hfiles
    | ok fs =>
      obtain ⟨f, lead, node, hf, hname, hrest⟩ :=
        file_eq_node ⟨p.source, .cpp⟩ p.unit hu rfl hfs hd
      rw [String.append_assoc] at hname
      exact ⟨p, fs, d, f, lead, node, rfl, hu, hfs, hd, hf, hname, hrest⟩

end Transcribe
