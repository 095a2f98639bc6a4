/-
  Transcribe.Proofs.Track.Basic — scripts that keep to an outline.

  A script tracks an outline if a pen that stands where the outline starts ends where the
  outline ends. On the way the cursor never goes back, and the only reason to stop is a
  construct that the target rejects: either the node the script belongs to, which has the
  outline in its span, or a node inside it.

  Between two tokens a pen need not stand where the last one ends. Its `Stance` says where in the
  gap it is, and a script is given with the stance it starts from and the one it leads to. How a run
  may end is `Lands`: behind the outline, or with a failure that is `Excused`, that is, a rejection
  at an offset that may be blamed, or a block outside of methods where such blocks occur (`stray`).
  - `Tracks.append`: scripts one after the other track their outlines one after the other.
  - `Tracks.frame`: a node's script tracks the node's outline if its body does.
-/

import Transcribe.Proofs.Fault
import Transcribe.Proofs.Outline
import Transcribe.Proofs.Path

namespace Transcribe

open Text (Span Source byteLength)
open Java (Modifier Node)
open Outline (Reads Reads.stop_eq reads_nil reads_append reads_token reads_framed reads_cons)

variable {span : Span} {st : Stroke} {α : Type}

/-- How a pen stands to the end of the last token read. -/
inductive Stance where
  /-- Right there, or in the gap behind it if the space there was taken. -/
  | behind
  /-- Anywhere in the gap behind it. -/
  | within
  /-- At the next token. -/
  | before

def Stance.Holds (s : Source) (o : Nat) (p : Pen) : Stance → Prop
  | .behind => s.InGap o p.position ∧ (p.trailing = false → p.position = o)
  | .within => s.InGap o p.position
  | .before => p.position = s.skipSpace false o

theorem Stance.Holds.inGap {s : Source} {o : Nat} {p : Pen} {a : Stance} (h : a.Holds s o p)
    (ho : s.Boundary o) : s.InGap o p.position := by
  cases a with
  | behind => exact h.1
  | within => exact h
  | before =>
    rw [show p.position = s.skipSpace false o from h]
    exact Source.inGap_skipSpace false ho

theorem Stance.Holds.congr {s : Source} {o : Nat} {p q : Pen} {a : Stance} (h : a.Holds s o p)
    (hp : q.position = p.position) (ht : q.trailing = p.trailing) : a.Holds s o q := by
  cases a <;> simpa only [Stance.Holds, hp, ht] using h

/-- The offsets at which a script along an outline from `o` to `o'` may reject something: those
inside a node of `ns` and, if `own`, those the outline covers. -/
def Blamed (o o' : Nat) (own : Bool) (ns : List Node) (x : Nat) : Prop :=
  own = true ∧ o ≤ x ∧ x < o' ∨ ∃ n ∈ ns, n.span.contains x = true

/-- Reasons to stop: a rejection at one of the offsets, and a block outside every method where
such blocks may occur. -/
def Excused (stray : Bool) (blamed : Nat → Prop) : Failure → Prop
  | .rejected _ place => blamed place.offset
  | .breached .strayBlock _ => stray = true
  | _ => False

theorem Excused.imp {stray : Bool} {P Q : Nat → Prop} {f : Failure} (h : Excused stray P f)
    (hPQ : ∀ x, P x → Q x) : Excused stray Q f := by
  unfold Excused at h ⊢
  split at h
  · exact hPQ _ h
  · exact h
  · cases h

def Lands (s : Source) (stray : Bool) (finish : Stance) (o o' : Nat) (own : Bool)
    (ns : List Node) : Except Stop Pen → Prop
  | .ok q => finish.Holds s o' q ∧ own = false ∧ ns = []
  | .error e => Excused stray (Blamed o o' own ns) e.failure

/-! ## Operations in place -/

def Pen.entered (p : Pen) : Pen := { p.note with trailing := false }

@[simp] theorem Pen.entered_position (p : Pen) : p.entered.position = p.position := rfl

namespace Job

variable {j : Job} {p : Pen}

theorem expect_eq_ok {t : String} (h : j.source.hasAt p.position t = true) :
    j.expect t p = .ok (p.moveTo (p.position + byteLength t.toList)) := by
  obtain ⟨cs, hcs⟩ := Outline.hasAt_iff.1 h
  simp [expect, hcs]

theorem exists_copySpace (b : Bool) (h : j.source.Boundary p.position) :
    ∃ q, j.copySpace b p = .ok q ∧ q.position = j.source.skipSpace b p.position ∧
      q.trailing = p.trailing := by
  obtain ⟨cs, hcs⟩ := Source.exists_slice h (Source.inGap_skipSpace b h).boundary
    (Source.le_skipSpace b _)
  exact ⟨(j.writeSpace cs p).moveTo (j.source.skipSpace b p.position),
    by simp only [copySpace, hcs], rfl, by simp⟩

theorem exists_copyBreak (h : j.source.Boundary p.position) :
    ∃ q, j.copyBreak p = .ok q ∧ q.position = j.source.skipBreak p.position := by
  have hg := Source.inGap_skipBreak h
  obtain ⟨cs, hcs⟩ := Source.exists_slice h hg.boundary hg.le
  exact ⟨(p.write (String.ofList cs)).moveTo (j.source.skipBreak p.position),
    by simp only [copyBreak, hcs], rfl⟩

theorem stroke_enter (h : p.position = span.start) :
    j.stroke p (.enter span) = .ok p.entered := by
  simp only [stroke, enter, requireAt, if_pos h]; rfl

theorem run_enter {r : Script} (h : p.position = span.start) :
    j.run (.enter span :: r) p = j.run r p.entered := by
  rw [run_cons, stroke_enter h]; rfl

theorem climbs_enter {r : Script} (h : p.position = span.start) (hb : j.source.Boundary span.start)
    (hr : j.Climbs r p.entered) :
    j.Climbs (.enter span :: r) p := by
  refine climbs_append (a := [.enter span]) (climbs_single ?_ ?_) fun q hq => ?_
  · rw [stroke_enter h]; simp [between]
  · rw [stroke_enter h]; exact Source.le_size (h ▸ hb)
  · rw [run_enter h] at hq
    exact Except.ok.inj hq ▸ hr

/-- Copying comments either takes the whole gap or nothing of it. -/
theorem copyComments_cases (j : Job) (p : Pen) :
    j.copyComments p = p ∨ (j.copyComments p).position = j.source.skipSpace false p.position := by
  simp only [copyComments]
  split
  · split
    · exact .inl rfl
    · exact .inr rfl
  · exact .inl rfl

theorem exists_stop (f : Text.Place → Failure) (h : j.source.Boundary p.position) :
    ∃ place, j.stop f p = .error ⟨f place, p⟩ ∧ place.offset = p.position := by
  obtain ⟨place, hp, ho⟩ := Source.exists_place j.ruler h
  exact ⟨place, by simp only [stop, hp], ho⟩

end Job

def Tracks (j : Job) (stray : Bool) (start finish : Stance) (m : Outline) (own : Bool)
    (ns : List Node) (script : Script) : Prop :=
  ∀ ⦃o o' : Nat⦄ ⦃p : Pen⦄, Reads j.source m o o' → start.Holds j.source o p →
    j.Climbs script p ∧ Lands j.source stray finish o o' own ns (j.run script p)

namespace Tracks

variable {j : Job} {stray : Bool} {a b c : Stance} {m m' : Outline} {own own' : Bool}
  {ns ns' : List Node} {r r' : Script}

theorem of_eq (h : Tracks j stray a b m own ns r) (hm : m = m') (ho : own = own') (hn : ns = ns') :
    Tracks j stray a b m' own' ns' r := by
  subst hm ho hn
  exact h

theorem nil : Tracks j stray a a [] false [] [] := by
  intro o o' p hr hp
  obtain ⟨-, rfl⟩ := reads_nil.1 hr
  exact ⟨Job.climbs_nil p, hp, rfl, rfl⟩

theorem append (h : Tracks j stray a b m own ns r) (h' : Tracks j stray b c m' own' ns' r') :
    Tracks j stray a c (m ++ m') (own || own') (ns ++ ns') (r ++ r') := by
  intro o o' p hr hp
  obtain ⟨x, hr1, hr2⟩ := reads_append.1 hr
  obtain ⟨hc, hl⟩ := h hr1 hp
  rw [Job.run_append]
  cases hrun : j.run r p with
  | error e =>
    rw [hrun] at hl
    refine ⟨Job.climbs_append hc fun q hq => absurd (hrun.symm.trans hq) (by simp), ?_⟩
    refine Excused.imp hl fun y hy => ?_
    have := hr2.le
    rcases hy with ⟨ho, h1, h2⟩ | ⟨n, hn, hy⟩
    · exact .inl ⟨by simp [ho], h1, by omega⟩
    · exact .inr ⟨n, List.mem_append_left _ hn, hy⟩
  | ok q =>
    rw [hrun] at hl
    obtain ⟨hq, rfl, rfl⟩ := hl
    obtain ⟨hc', hl'⟩ := h' hr2 hq
    refine ⟨Job.climbs_append hc fun q' hq' => ?_, ?_⟩
    · rw [hrun] at hq'
      exact Except.ok.inj hq' ▸ hc'
    · show Lands _ _ _ _ _ _ _ (j.run r' q)
      cases hrun' : j.run r' q with
      | error e =>
        rw [hrun'] at hl'
        refine Excused.imp hl' fun y hy => ?_
        have := hr1.le
        rcases hy with ⟨ho, h1, h2⟩ | hy
        · exact .inl ⟨ho, by omega, h2⟩
        · exact .inr hy
      | ok q' => rw [hrun'] at hl'; exact hl'

/-- The same with one stroke in front. -/
theorem cons (h : Tracks j stray a b m own ns [st]) (h' : Tracks j stray b c m' own' ns' r') :
    Tracks j stray a c (m ++ m') (own || own') (ns ++ ns') (st :: r') :=
  h.append h'

theorem of_within (h : Tracks j stray .within b m own ns r) : Tracks j stray a b m own ns r :=
  fun _ _ _ hr hp => h hr (hp.inGap hr.1)

theorem to_within (h : Tracks j stray a b m own ns r) : Tracks j stray a .within m own ns r := by
  intro o o' p hr hp
  obtain ⟨hc, hl⟩ := h hr hp
  refine ⟨hc, ?_⟩
  cases hrun : j.run r p with
  | error e => rw [hrun] at hl; exact hl
  | ok q => rw [hrun] at hl; exact ⟨hl.1.inGap hr.boundary, hl.2⟩

/-! ## Single strokes -/

/-- A stroke that cannot fail along its outline. -/
theorem of_moves (h : ∀ ⦃o o' : Nat⦄ ⦃p : Pen⦄, Reads j.source m o o' → a.Holds j.source o p →
      ∃ q, j.stroke p st = .ok q ∧
        (p.position :: j.between p st ++ [q.position]).Pairwise (· ≤ ·) ∧
        b.Holds j.source o' q) : Tracks j stray a b m false [] [st] := by
  intro o o' p hr hp
  obtain ⟨q, hst, hle, hq⟩ := h hr hp
  have hrun : j.run [st] p = .ok q := by rw [Job.run_cons, hst]; rfl
  refine ⟨Job.climbs_single (by rw [hst]; exact hle) ?_, ?_⟩
  · rw [hst]; exact Source.le_size (hq.inGap hr.boundary).boundary
  · rw [hrun]; exact ⟨hq, rfl, rfl⟩

/-- The same for a stroke that is one operation. -/
theorem of_stroke (hb : ∀ p, j.between p st = [])
    (h : ∀ ⦃o o' : Nat⦄ ⦃p : Pen⦄, Reads j.source m o o' → a.Holds j.source o p →
      ∃ q, j.stroke p st = .ok q ∧ p.position ≤ q.position ∧ b.Holds j.source o' q) :
    Tracks j stray a b m false [] [st] := by
  refine of_moves fun o o' p hr hp => ?_
  obtain ⟨q, hst, hle, hq⟩ := h hr hp
  exact ⟨q, hst, by simpa [hb p] using hle, hq⟩

/-- The same for a stroke of two operations with the cursor at `x` between them. -/
theorem of_stroke_pair (h : ∀ ⦃o o' : Nat⦄ ⦃p : Pen⦄, Reads j.source m o o' → a.Holds j.source o p →
      ∃ q x, j.between p st = [x] ∧ j.stroke p st = .ok q ∧ p.position ≤ x ∧ x ≤ q.position ∧
        b.Holds j.source o' q) : Tracks j stray a b m false [] [st] := by
  refine of_moves fun o o' p hr hp => ?_
  obtain ⟨q, x, hb, hst, hx, hle, hq⟩ := h hr hp
  exact ⟨q, hst, by simp [hb]; omega, hq⟩

/-- A stroke that stops at the cursor. -/
theorem of_stop {f : Text.Place → Failure} (hb : ∀ p, j.between p st = [])
    (hst : ∀ p, j.stroke p st = j.stop f p)
    (h : ∀ ⦃o o' : Nat⦄ ⦃p : Pen⦄ ⦃place : Text.Place⦄, Reads j.source m o o' →
      j.source.InGap o p.position → place.offset = p.position →
      Excused stray (Blamed o o' own ns) (f place)) : Tracks j stray a b m own ns [st] := by
  intro o o' p hr hp
  have hg := hp.inGap hr.1
  obtain ⟨place, hstop, hplace⟩ := Job.exists_stop f (j := j) (p := p) hg.boundary
  have hrun : j.run [st] p = .error ⟨f place, p⟩ := by rw [Job.run_cons, hst, hstop]; rfl
  refine ⟨Job.climbs_single ?_ ?_, ?_⟩
  · simp [hb, hst]
  · rw [hst, Job.lastPen_stop]; exact Source.le_size hg.boundary
  · rw [hrun]; exact h hr hg hplace

/-- A stroke that leaves the cursor where it is. -/
theorem still (hb : ∀ p, j.between p st = [])
    (h : ∀ p, ∃ q, j.stroke p st = .ok q ∧ q.position = p.position ∧ q.trailing = p.trailing) :
    Tracks j stray a a [] false [] [st] := by
  refine of_stroke hb fun o o' p hr hp => ?_
  obtain ⟨-, rfl⟩ := reads_nil.1 hr
  obtain ⟨q, hq, hpos, ht⟩ := h p
  exact ⟨q, hq, Nat.le_of_eq hpos.symm, hp.congr hpos ht⟩

theorem write (t : String) : Tracks j stray a a [] false [] [.write t] :=
  still (fun _ => rfl) fun _ => ⟨_, rfl, rfl, rfl⟩

theorem writes (ts : List String) : Tracks j stray a a [] false [] (ts.map .write) := by
  induction ts with
  | nil => exact nil
  | cons t ts ih => exact (write t).cons ih

/-- Strokes that may be left out. -/
theorem optional (d : Bool) (h : Tracks j stray a a [] false [] r) :
    Tracks j stray a a [] false [] (if d = true then r else []) := by
  split
  · exact h
  · exact nil

theorem swap (t t' : String) : Tracks j stray .before .behind [.token t] false [] [.swap t t'] := by
  refine of_stroke (fun _ => rfl) fun o o' p hr hp => ?_
  obtain ⟨-, ht, ho'⟩ := reads_token.1 hr
  rw [← show p.position = j.source.skipSpace false o from hp] at ht ho'
  refine ⟨_, by rw [Job.stroke, Job.expect_eq_ok ht]; rfl, by simp, ?_⟩
  exact ⟨by simpa [← ho'] using .refl hr.boundary, fun _ => ho'.symm⟩

theorem keep (t : String) : Tracks j stray .before .behind [.token t] false [] [.keep t] := swap t t

theorem drop (t : String) : Tracks j stray .before .behind [.token t] false [] [.drop t] := swap t ""

theorem copySpace : Tracks j stray .within .before [] false [] [.copySpace] := by
  refine of_stroke (fun _ => rfl) fun o o' p hr hp => ?_
  obtain ⟨-, rfl⟩ := reads_nil.1 hr
  obtain ⟨q, hq, hpos, -⟩ := Job.exists_copySpace false (p := p) hp.boundary
  refine ⟨q, hq, by rw [hpos]; exact Source.le_skipSpace false _, ?_⟩
  exact hpos.trans (Source.skipSpace_eq_of_inGap hp)

theorem skipSpace : Tracks j stray .within .before [] false [] [.skipSpace] := by
  refine of_stroke (fun _ => rfl) fun o o' p hr hp => ?_
  obtain ⟨-, rfl⟩ := reads_nil.1 hr
  exact ⟨_, rfl, Source.le_skipSpace false _, Source.skipSpace_eq_of_inGap hp⟩

theorem copyDelimiter : Tracks j stray .within .before [] false [] [.copyDelimiter] := by
  refine of_stroke (fun _ => rfl) fun o o' p hr hp => ?_
  obtain ⟨-, rfl⟩ := reads_nil.1 hr
  obtain ⟨q, hq, hpos, -⟩ := Job.exists_copySpace false (p := p) hp.boundary
  refine ⟨if q.movedFrom p then q else q.write " ", ?_, ?_, ?_⟩
  · rw [Job.stroke, Job.copyDelimiter, hq]; rfl
  · have := Source.le_skipSpace (s := j.source) false p.position
    split <;> simpa [hpos] using this
  · have := hpos.trans (Source.skipSpace_eq_of_inGap hp)
    split <;> exact this

theorem copyLine : Tracks j stray .within .within [] false [] [.copyLine] := by
  refine of_stroke (fun _ => rfl) fun o o' p hr hp => ?_
  obtain ⟨-, rfl⟩ := reads_nil.1 hr
  obtain ⟨q, hq, hpos, -⟩ := Job.exists_copySpace true (p := p) hp.boundary
  have hg := Source.inGap_skipSpace true hp.boundary
  rw [← hpos] at hg
  exact ⟨q, hq, hg.le, Source.InGap.trans hp hg⟩

theorem copyBreak : Tracks j stray .within .within [] false [] [.copyBreak] := by
  refine of_stroke (fun _ => rfl) fun o o' p hr hp => ?_
  obtain ⟨-, rfl⟩ := reads_nil.1 hr
  obtain ⟨q, hq, hpos⟩ := Job.exists_copyBreak (p := p) hp.boundary
  have hg := Source.inGap_skipBreak hp.boundary
  rw [← hpos] at hg
  exact ⟨q, hq, hg.le, Source.InGap.trans hp hg⟩

theorem skipBlankLines : Tracks j stray .within .within [] false [] [.skipBlankLines] := by
  refine of_stroke (fun _ => rfl) fun o o' p hr hp => ?_
  obtain ⟨-, rfl⟩ := reads_nil.1 hr
  have hg := Source.inGap_skipBlankLines hp.boundary
  exact ⟨_, rfl, hg.le, Source.InGap.trans hp hg⟩

theorem skipLine : Tracks j stray .within .within [] false [] [.skipLine] := by
  refine of_stroke_pair fun o o' p hr hp => ?_
  obtain ⟨-, rfl⟩ := reads_nil.1 hr
  have hs := Source.inGap_skipSpace true hp.boundary
  have hb := Source.inGap_skipBreak hs.boundary
  exact ⟨_, _, rfl, rfl, hs.le, hb.le, (Source.InGap.trans hp hs).trans hb⟩

theorem copyComments : Tracks j stray .within .within [] false [] [.copyComments] := by
  refine of_stroke (fun _ => rfl) fun o o' p hr hp => ?_
  obtain ⟨-, rfl⟩ := reads_nil.1 hr
  refine ⟨_, rfl, ?_⟩
  rcases Job.copyComments_cases j p with h | h
  · rw [h]; exact ⟨Nat.le_refl _, hp⟩
  · refine ⟨by rw [h]; exact Source.le_skipSpace false _, ?_⟩
    show j.source.InGap o (j.copyComments p).position
    rw [h]
    exact Source.InGap.trans hp (Source.inGap_skipSpace false hp.boundary)

theorem copyCommentsOrSkip : Tracks j stray .within .before [] false [] [.copyCommentsOrSkip] := by
  refine of_stroke_pair fun o o' p hr hp => ?_
  obtain ⟨-, rfl⟩ := reads_nil.1 hr
  have hle := Source.le_skipSpace (s := j.source) false p.position
  have hmid : p.position ≤ (j.copyComments p).position ∧
      (j.copyComments p).position ≤ j.source.skipSpace false p.position := by
    rcases Job.copyComments_cases j p with h | h <;> rw [h] <;> omega
  have hend : (if (j.copyComments p).movedFrom p then j.copyComments p
      else j.skipSpace false (j.copyComments p)).position = j.source.skipSpace false p.position := by
    split
    · rename_i hm
      rcases Job.copyComments_cases j p with h | h
      · simp [h, Pen.movedFrom] at hm
      · exact h
    · rename_i hm
      have hq : (j.copyComments p).position = p.position := by simpa [Pen.movedFrom] using hm
      show j.source.skipSpace false (j.copyComments p).position = _
      rw [hq]
  refine ⟨_, _, rfl, rfl, hmid.1, ?_, ?_⟩
  · rw [hend]; exact hmid.2
  · exact hend.trans (Source.skipSpace_eq_of_inGap hp)

/-- A comma behind the last item, if it is there. -/
theorem keepIf (t : String) : Tracks j stray .before .within [.maybe t] false [] [.keepIf t] := by
  refine of_stroke (fun _ => rfl) fun o o' p hr hp => ?_
  have hp : p.position = j.source.skipSpace false o := hp
  have hfollow := (Outline.reads_singleton.1 hr).2
  simp only [Mark.follow, ← hp, Option.some.injEq] at hfollow
  by_cases ht : j.source.hasAt p.position t = true
  · rw [if_pos ht] at hfollow
    refine ⟨_, by rw [Job.stroke, Job.sees, if_pos ht, Job.expect_eq_ok ht]; rfl, by simp, ?_⟩
    subst hfollow
    exact .refl hr.boundary
  · rw [if_neg ht] at hfollow
    refine ⟨p, by rw [Job.stroke, Job.sees, if_neg ht], Nat.le_refl _, ?_⟩
    subst hfollow
    show j.source.InGap o p.position
    rw [hp]
    exact Source.inGap_skipSpace false hr.1

theorem trail : Tracks j stray .within .behind [] false [] [.trail] := by
  refine of_stroke (fun _ => rfl) fun o o' p hr hp => ?_
  obtain ⟨-, rfl⟩ := reads_nil.1 hr
  exact ⟨_, rfl, Nat.le_refl _, hp, fun h => by cases h⟩

/-- Moves to the end of what is read. -/
theorem jump {stop : Nat} (hm : m.moving = true)
    (hstop : ∀ ⦃o o' : Nat⦄, Reads j.source m o o' → stop = o') :
    Tracks j stray .within .behind m false [] [.moveTo stop] := by
  refine of_stroke (fun _ => rfl) fun o o' p hr hp => ?_
  obtain rfl := hstop hr
  refine ⟨_, rfl, ?_, .refl hr.boundary, fun _ => rfl⟩
  have h1 := hr.skipSpace_le hm
  have h2 := Source.le_skipSpace (s := j.source) false p.position
  rw [Source.skipSpace_eq_of_inGap hp] at h2
  exact Nat.le_trans h2 h1

theorem label (access : Java.Access) (member : Nat) {owner : Nat}
    (ho : j.source.Boundary owner) :
    Tracks j stray .within .within [] false [] [.label access member owner] := by
  refine of_moves fun o o' p hr hp => ?_
  obtain ⟨-, rfl⟩ := reads_nil.1 hr
  simp only [Job.stroke, Job.label, Job.between]
  split
  · obtain ⟨q, hq, hpos, -⟩ := Job.exists_copySpace false (p := p) hp.boundary
    have hg := Source.inGap_skipSpace false hp.boundary
    rw [← hpos] at hg
    refine ⟨q.write (Java.word access ++ ":" ++ " "), by rw [hq]; rfl, by simpa using hg.le, ?_⟩
    exact Source.InGap.trans hp hg
  · obtain ⟨q, hq, hpos, -⟩ := Job.exists_copySpace true (p := p) hp.boundary
    have hg := Source.inGap_skipSpace true hp.boundary
    rw [← hpos] at hg
    obtain ⟨r, hr, hpos'⟩ := Job.exists_copyBreak (p := q) hg.boundary
    have hg' := Source.inGap_skipBreak hg.boundary
    rw [← hpos'] at hg'
    obtain ⟨column, hcol⟩ := Source.exists_column j.ruler ho
    rw [hq, hcol]
    refine ⟨j.newline { r with sink := (r.sink.padTo column).write (Java.word access ++ ":") },
      by simp [bind, Except.bind, hr, pure, Except.pure], ?_, (Source.InGap.trans hp hg).trans hg'⟩
    have h1 := hg.le
    have h2 := hg'.le
    simp [Job.newline]
    omega

/-- What the target rejects. It stops with the cursor in front of what it has not read. -/
theorem reject (what : Rejection) (hm : m.solid = true) :
    Tracks j stray a b m true ns [.reject what] := by
  refine of_stop (f := .rejected what) (fun _ => rfl) (fun _ => rfl) fun o o' p place hr hg hp => ?_
  have h1 := hr.skipSpace_lt hm
  have h2 := Source.le_skipSpace (s := j.source) false p.position
  rw [Source.skipSpace_eq_of_inGap hg] at h2
  have h3 := hg.le
  exact .inl ⟨rfl, by omega, by omega⟩

/-- A block that belongs to no method. -/
theorem strayBlock (hs : stray = true) : Tracks j stray a b m own ns [.breach .strayBlock] :=
  of_stop (f := .breached .strayBlock) (fun _ => rfl) (fun _ => rfl) fun _ _ _ _ _ _ _ => hs

/-! ## Nodes -/

theorem leave (span : Span) : Tracks j stray .behind .behind [.last span] false [] [.leave span] := by
  refine of_stroke (fun _ => rfl) fun o o' p hr hp => ?_
  obtain ⟨-, hs⟩ := Outline.reads_singleton.1 hr
  simp only [Mark.follow, Option.ite_none_right_eq_some, Option.some.injEq] at hs
  obtain ⟨hs, rfl⟩ := hs
  refine ⟨p.note, ?_, Nat.le_refl _, hp.congr rfl rfl⟩
  simp only [Job.stroke, Job.leave]
  cases ht : p.trailing with
  | true =>
    have hle := hp.1.le
    rw [if_pos rfl, Job.requireFrom, if_pos (by omega)]; rfl
  | false =>
    have hpos := hp.2 ht
    rw [if_neg (by simp), Job.requireAt, if_pos (by omega)]; rfl

/-- A node's script tracks its outline if its body does, up to the end of the span. What the
body stops for on behalf of the node is then the fault of the node. -/
theorem frameTo (cpp : Bool) (n : Node) (below : List Node) (hn : n.span = span)
    (h : j.source.Boundary span.start → Tracks j stray .before .behind (m ++ [Mark.last span])
      (n.isRejected cpp) (faults cpp below) r) :
    Tracks j stray .before .behind (Outline.framed span m) false (faults cpp (n :: below))
      (Script.framed span r) := by
  intro o o' p hr hp
  obtain ⟨hb, hs, hm, he⟩ := reads_framed.1 hr
  have hpos : p.position = span.start := hp.trans hs.symm
  have hq : Stance.before.Holds j.source span.start p.entered := by
    show p.position = j.source.skipSpace false span.start
    rw [hpos, hs, Source.skipSpace_skipSpace false hb]
  have hlast : Reads j.source [.last span] o' o' :=
    Outline.reads_singleton.2 ⟨hm.boundary, if_pos he⟩
  have hm' : Reads j.source (m ++ [Mark.last span] ++ [Mark.last span]) span.start o' :=
    reads_append.2 ⟨o', reads_append.2 ⟨o', hm, hlast⟩, hlast⟩
  obtain ⟨hc, hl⟩ := ((h hm.1).append (leave span)) hm' hq
  refine ⟨Job.climbs_enter hpos hm.1 hc, ?_⟩
  rw [Script.framed, List.cons_append, Job.run_enter hpos, faults_cons]
  generalize j.run (r ++ [Stroke.leave span]) _ = result at hl ⊢
  cases result with
  | ok q =>
    obtain ⟨hq, hown, hns⟩ := hl
    simp only [Bool.or_false, List.append_nil] at hown hns
    exact ⟨hq, rfl, by simp [hown, hns]⟩
  | error e =>
    simp only [Lands, Bool.or_false, List.append_nil] at hl ⊢
    refine hl.imp fun x hx => .inr ?_
    rcases hx with ⟨hown, h1, h2⟩ | ⟨n', hn', hx⟩
    · refine ⟨n, by simp [hown], ?_⟩
      simp only [hn, Span.contains, Bool.and_eq_true, decide_eq_true_eq]
      omega
    · exact ⟨n', List.mem_append_right _ hn', hx⟩

theorem frame (cpp : Bool) (n : Node) (below : List Node) (hn : n.span = span)
    (h : j.source.Boundary span.start →
      Tracks j stray .before .behind m (n.isRejected cpp) (faults cpp below) r) :
    Tracks j stray .before .behind (Outline.framed span m) false (faults cpp (n :: below))
      (Script.framed span r) := by
  refine frameTo cpp n below hn fun hb o o' p hr hp => ?_
  obtain ⟨x, hm, hx⟩ := reads_append.1 hr
  obtain ⟨-, hx⟩ := Outline.reads_singleton.1 hx
  simp only [Mark.follow, Option.ite_none_right_eq_some, Option.some.injEq] at hx
  obtain ⟨-, rfl⟩ := hx
  exact h hb hm hp

/-! ## Tokens and lists -/

theorem space (h : Tracks j stray .before c m own ns r) :
    Tracks j stray a c m own ns (.copySpace :: r) :=
  of_within (copySpace.cons h)

theorem gap (h : Tracks j stray .before c m own ns r) :
    Tracks j stray a c m own ns (.skipSpace :: r) :=
  of_within (skipSpace.cons h)

theorem token (t : String) : Tracks j stray a .behind [.token t] false [] (Script.token t) :=
  space (keep t)

@[simp] theorem flatMap_none (as : List α) :
    (as.flatMap fun _ => ([] : List Node)) = [] := by
  simp

theorem flatMap {as : List α} {f : α → Script} {g : α → Outline} {k : α → List Node}
    (h : ∀ x ∈ as, Tracks j stray a a (g x) false (k x) (f x)) :
    Tracks j stray a a (as.flatMap g) false (as.flatMap k) (as.flatMap f) := by
  induction as with
  | nil => exact nil
  | cons x as ih =>
    simp only [List.flatMap_cons]
    exact (h x List.mem_cons_self).append (ih fun y hy => h y (List.mem_cons_of_mem _ hy))

theorem commaList {as : List α} {f : α → Script} {g : α → Outline} {k : α → List Node}
    (h : ∀ x ∈ as, Tracks j stray .before .behind (g x) false (k x) (f x)) :
    Tracks j stray .behind .behind (Outline.commaList (as.map g)) false (as.flatMap k)
      (Script.commaList (as.map f)) := by
  cases as with
  | nil => exact nil
  | cons x as =>
    have hrest : ∀ y ∈ as, Tracks j stray .behind .behind (.token "," :: g y) false (k y)
        (Script.token "," ++ .copySpace :: f y) := fun y hy =>
      (token ",").append (h y (List.mem_cons_of_mem _ hy)).space
    have hx := (h x List.mem_cons_self).space (a := .behind)
    simpa only [List.map_cons, Outline.commaList, Script.commaList, List.flatMap_map,
      List.flatMap_cons, Bool.or_false] using hx.append (flatMap hrest)

theorem intercalate {as : List α} {f : α → Script} {g : α → Outline} {sep : Script} (hne : as ≠ [])
    (h : ∀ x ∈ as, Tracks j stray a .behind (g x) false [] (f x))
    (hsep : Tracks j stray .behind a m false [] sep) :
    Tracks j stray a .behind (m.intercalate (as.map g)) false [] (sep.intercalate (as.map f)) := by
  induction as with
  | nil => exact absurd rfl hne
  | cons x as ih =>
    have hx := h x List.mem_cons_self
    cases as with
    | nil => simpa using hx
    | cons y as =>
      have hy := ih (by simp) fun z hz => h z (List.mem_cons_of_mem _ hz)
      simpa [List.intercalate] using hx.append (hsep.append hy)

theorem ofName (n : Java.SimpleName) :
    Tracks j stray .before .behind (Outline.ofName n) false [] (Script.ofName n) :=
  frame false (.ofName n) [] rfl fun _ => keep n.text

/-- What the grammar asks for may be used. -/
theorem demand {holds : Bool} (h : holds = true → Tracks j stray a b m own ns r) :
    Tracks j stray a b (.demand holds :: m) own ns r := by
  intro o o' p hr hp
  obtain ⟨x, hx, hr⟩ := reads_cons.1 hr
  obtain ⟨-, hx⟩ := Outline.reads_singleton.1 hx
  simp only [Mark.follow, Option.ite_none_right_eq_some, Option.some.injEq] at hx
  obtain ⟨hd, rfl⟩ := hx
  exact h hd hr hp

/-- A dotted name that is left out. -/
theorem dropName (n : Java.Name) :
    Tracks j stray .before .behind (Outline.ofPath n) false [] (Script.dropName n) := by
  have hsep : Tracks j stray .behind .before [.token "."] false []
      [.skipSpace, .drop ".", .skipSpace] :=
    gap ((drop ".").cons (of_within skipSpace))
  refine demand fun hne => ?_
  exact intercalate (by simpa using hne) (fun s _ => drop s.text) hsep

/-! ## Modifiers -/

theorem jumpModifier (d : Modifier) :
    Tracks j stray .within .behind (Outline.ofModifier d) false [] [.moveTo d.span.stop] := by
  cases d with
  | keyword span k => exact jump rfl fun _ _ => Reads.stop_eq
  | tag span name => exact jump rfl fun _ _ => Reads.stop_eq

theorem replaceModifiers (ds : List Modifier) (words : List String) :
    Tracks j stray .before .before (Outline.ofModifiers ds) false []
      (Script.replaceModifiers ds words) := by
  simp only [Script.replaceModifiers]
  cases hlast : ds.getLast? with
  | none =>
    obtain rfl := List.getLast?_eq_none_iff.1 hlast
    simp only [Outline.ofModifiers, List.flatMap_nil]
    split
    · exact nil
    · exact write _
  | some last =>
    have hds : ds = ds.dropLast ++ [last] := by
      obtain ⟨ds', rfl⟩ := List.getLast?_eq_some_iff.1 hlast
      simp
    have hinit : Tracks j stray .within .within (ds.dropLast.flatMap Outline.ofModifier) false
        (ds.dropLast.flatMap fun _ => [])
        (ds.dropLast.flatMap fun d => [.moveTo d.span.stop, .copyComments]) :=
      flatMap fun d _ => by simpa using (jumpModifier d).append (of_within copyComments)
    have hend : Tracks j stray .behind .before [] false []
        (if " ".intercalate words = "" then [.copyCommentsOrSkip]
          else [.write (" ".intercalate words), .copyDelimiter]) := by
      split
      · exact of_within copyCommentsOrSkip
      · exact (write _).cons (of_within copyDelimiter)
    have h := of_within (a := .before) (hinit.append ((jumpModifier last).cons hend))
    rw [hds]
    simpa [Outline.ofModifiers] using h

end Tracks

end Transcribe
