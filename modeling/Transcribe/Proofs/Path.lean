/-
  Transcribe.Proofs.Path — the offsets at which the cursor stands while a script is run.

  A path has one offset for every operation on the pen, also where a stroke is made of several
  (`between`). It goes on up to where the script stops, so it is there however a run ends. A script
  climbs if its path never goes back and never leaves the text. What a pen keeps of the nodes it has
  written (`Pen.record`) changes only at the start and the end of a node, and where the space behind
  it is taken; all other strokes are silent (`Stroke.isSilent`).
  - `climbs_append`: two scripts climb if the second climbs from where the first ends.
  - `log_sublist`: the offsets that are recorded for nodes are on the path.
-/

import Transcribe.Proofs.Place
import Transcribe.Pen.Stroke

namespace Transcribe

open Text (Span Source)

def lastPen : Except Stop Pen → Pen
  | .ok p => p
  | .error e => e.pen

@[simp] theorem lastPen_ok (p : Pen) : lastPen (.ok p) = p := rfl
@[simp] theorem lastPen_error (e : Stop) : lastPen (.error e) = e.pen := rfl

namespace Job

/-- The offsets between the operations of a stroke that is made of several. -/
def between (j : Job) (p : Pen) : Stroke → List Nat
  | .copyCommentsOrSkip => [(j.copyComments p).position]
  | .skipLine => [(j.skipSpace true p).position]
  | .label _ member _ =>
    if j.source.lineNumber p.position = j.source.lineNumber member then []
    else [(lastPen (j.copySpace true p)).position]
  | _ => []

def path (j : Job) : Script → Pen → List Nat
  | [], _ => []
  | st :: script, p =>
    j.between p st ++ (lastPen (j.stroke p st)).position :: match j.stroke p st with
      | .ok q => path j script q
      | .error _ => []

variable {j : Job}

theorem path_append (a b : Script) (p : Pen) :
    j.path (a ++ b) p = j.path a p ++ match j.run a p with
      | .ok q => j.path b q
      | .error _ => [] := by
  induction a generalizing p with
  | nil => rfl
  | cons st a ih =>
    rw [List.cons_append, path, path, run_cons]
    cases j.stroke p st with
    | ok q =>
      simp only [ih, Except.bind, List.append_assoc, List.cons_append]
    | error e => simp [Except.bind]

/-! ## Climbing -/

structure Climbs (j : Job) (script : Script) (p : Pen) : Prop where
  ordered : (p.position :: j.path script p).Pairwise (· ≤ ·)
  inside : ∀ x ∈ j.path script p, x ≤ j.source.size

theorem climbs_nil (p : Pen) : j.Climbs [] p := ⟨by simp [path], by simp [path]⟩

/-- An ordered path stays below its end. -/
theorem le_lastPen {script : Script} {p : Pen}
    (h : (p.position :: j.path script p).Pairwise (· ≤ ·)) :
    ∀ x ∈ p.position :: j.path script p, x ≤ (lastPen (j.run script p)).position := by
  induction script generalizing p with
  | nil => simp [path]
  | cons st script ih =>
    rw [path, ← List.cons_append] at h ⊢
    rw [run_cons]
    obtain ⟨-, h2, h3⟩ := List.pairwise_append.1 h
    intro x hx
    cases hst : j.stroke p st with
    | ok q =>
      simp only [hst, lastPen_ok, Except.bind] at h2 h3 hx ⊢
      rcases List.mem_append.1 hx with hx | hx
      · exact Nat.le_trans (h3 x hx _ List.mem_cons_self) (ih h2 _ List.mem_cons_self)
      · exact ih h2 x hx
    | error e =>
      simp only [hst, lastPen_error, Except.bind, List.mem_append, List.mem_singleton] at h3 hx ⊢
      rcases hx with hx | rfl
      · exact h3 x hx _ rfl
      · exact Nat.le_refl _

theorem climbs_append {a b : Script} {p : Pen} (ha : j.Climbs a p)
    (hb : ∀ q, j.run a p = .ok q → j.Climbs b q) : j.Climbs (a ++ b) p := by
  have hpath := path_append (j := j) a b p
  cases hrun : j.run a p with
  | error e =>
    simp only [hrun, List.append_nil] at hpath
    exact ⟨by rw [hpath]; exact ha.ordered, by rw [hpath]; exact ha.inside⟩
  | ok q =>
    simp only [hrun] at hpath
    have hq := hb q hrun
    have hle := le_lastPen ha.ordered
    rw [hrun, lastPen_ok] at hle
    refine ⟨?_, fun x hx => ?_⟩
    · rw [hpath, ← List.cons_append, List.pairwise_append]
      obtain ⟨hq1, hq2⟩ := List.pairwise_cons.1 hq.ordered
      exact ⟨ha.ordered, hq2, fun x hx y hy => Nat.le_trans (hle x hx) (hq1 y hy)⟩
    · rw [hpath, List.mem_append] at hx
      exact hx.elim (ha.inside x) (hq.inside x)

theorem climbs_single {st : Stroke} {p : Pen}
    (h : (p.position :: j.between p st ++ [(lastPen (j.stroke p st)).position]).Pairwise (· ≤ ·))
    (hs : (lastPen (j.stroke p st)).position ≤ j.source.size) : j.Climbs [st] p := by
  have hpath : j.path [st] p = j.between p st ++ [(lastPen (j.stroke p st)).position] := by
    rw [path]
    split <;> rfl
  refine ⟨by rw [hpath]; exact h, fun x hx => ?_⟩
  rw [hpath] at hx
  rcases List.mem_append.1 hx with hx | hx
  · exact Nat.le_trans ((List.pairwise_append.1 h).2.2 x (List.mem_cons_of_mem _ hx) _
      List.mem_cons_self) hs
  · rw [List.mem_singleton.1 hx]; exact hs

/-! ## The record of nodes -/

end Job

/-- What a pen keeps of the nodes it has written: the offsets recorded, and whether the space behind
the last of them was taken. -/
def Pen.record (p : Pen) : Option (List Nat) × Bool := (p.log?, p.trailing)

@[simp] theorem Pen.record_moveTo (p : Pen) (o : Nat) : (p.moveTo o).record = p.record := rfl
@[simp] theorem Pen.record_write (p : Pen) (t : String) : (p.write t).record = p.record := rfl

def Stroke.isSilent : Stroke → Bool
  | .enter _ | .leave _ | .trail | .trailPast _ => false
  | _ => true

namespace Job

variable {j : Job}

@[simp] theorem record_writeSpace (cs : List Char) (p : Pen) :
    (j.writeSpace cs p).record = p.record := by
  simp only [writeSpace]
  split <;> rfl

@[simp] theorem writeSpace_trailing (cs : List Char) (p : Pen) :
    (j.writeSpace cs p).trailing = p.trailing :=
  congrArg Prod.snd (record_writeSpace cs p)

@[simp] theorem lastPen_stop (f : Text.Place → Failure) (p : Pen) : lastPen (j.stop f p) = p := by
  unfold stop
  split <;> rfl

@[simp] theorem lastPen_requireAt (o : Nat) (p : Pen) : lastPen (j.requireAt o p) = p := by
  unfold requireAt breach
  split
  · rfl
  · split <;> simp

@[simp] theorem lastPen_requireFrom (o : Nat) (p : Pen) : lastPen (j.requireFrom o p) = p := by
  unfold requireFrom breach
  split
  · rfl
  · split <;> simp

@[simp] theorem record_expect (t : String) (p : Pen) :
    (lastPen (j.expect t p)).record = p.record := by
  unfold expect breach
  split
  · split <;> simp
  · split <;> simp

@[simp] theorem record_copySpace (b : Bool) (p : Pen) :
    (lastPen (j.copySpace b p)).record = p.record := by
  simp only [copySpace]
  split <;> simp

@[simp] theorem record_copyBreak (p : Pen) : (lastPen (j.copyBreak p)).record = p.record := by
  simp only [copyBreak]
  split <;> simp

@[simp] theorem record_copyComments (p : Pen) : (j.copyComments p).record = p.record := by
  simp only [copyComments]
  split
  · split <;> simp
  · rfl

@[simp] theorem record_newlines (n : Nat) (p : Pen) :
    (Nat.repeat j.newline n p).record = p.record := by
  induction n with
  | zero => rfl
  | succ n ih => exact ih

theorem record_bind {r : Except Stop Pen} {f : Pen → Except Stop Pen} {p : Pen}
    (hr : (lastPen r).record = p.record) (hf : ∀ q, (lastPen (f q)).record = q.record) :
    (lastPen (r >>= f)).record = p.record := by
  cases r with
  | error e => exact hr
  | ok q => exact (hf q).trans hr

@[simp] theorem record_label (access : Java.Access) (member owner : Nat) (p : Pen) :
    (lastPen (j.label access member owner p)).record = p.record := by
  simp only [label]
  split
  · exact record_bind (record_copySpace false p) fun q => rfl
  · refine record_bind (record_copySpace true p) fun q => ?_
    refine record_bind (record_copyBreak q) fun r => ?_
    split <;> rfl

/-- A silent stroke leaves the record as it is. -/
theorem record_stroke {st : Stroke} (h : st.isSilent = true) (p : Pen) :
    (lastPen (j.stroke p st)).record = p.record := by
  cases st with
  | enter | leave | trail | trailPast => cases h
  | swap source target => exact record_bind (record_expect source p) fun q => rfl
  | keepIf text =>
    simp only [stroke]
    split
    · exact record_bind (record_expect text p) fun q => rfl
    · rfl
  | copyDelimiter =>
    refine record_bind (record_copySpace false p) fun q => ?_
    show (if q.movedFrom p then q else q.write " ").record = q.record
    split <;> rfl
  | copyCommentsOrSkip =>
    simp only [stroke]
    split <;> simp [skipSpace]
  | dedentBy o =>
    simp only [stroke]
    split <;> rfl
  | closeLine n =>
    simp only [stroke]
    split <;> simp
  | copyTrail =>
    simp only [stroke]
    split <;> simp
  | undent => rfl
  | _ => simp [stroke, newline, skipSpace, skipBreak, skipBlankLines, reject, breach]

/-- Where a node starts or ends, the offset is recorded if the check there is passed. -/
theorem log?_check {r : Except Stop Pen} {p : Pen} (hr : lastPen r = p) (f : Pen → Pen)
    (hf : ∀ q, (f q).position = q.position ∧ (f q).log? = q.log?.map (· ++ [q.position])) :
    ∃ l, l.Sublist [(lastPen (r >>= fun q => pure (f q))).position] ∧
      (lastPen (r >>= fun q => pure (f q))).log? = p.log?.map (· ++ l) := by
  subst hr
  cases r with
  | error e =>
    refine ⟨[], List.nil_sublist _, ?_⟩
    show e.pen.log? = e.pen.log?.map (· ++ [])
    simp
  | ok q =>
    refine ⟨[q.position], ?_, (hf q).2⟩
    exact (hf q).1 ▸ List.Sublist.refl _

/-- A stroke records at most the offset at which it ends. -/
theorem stroke_log (st : Stroke) (p : Pen) :
    ∃ l, l.Sublist [(lastPen (j.stroke p st)).position] ∧
      (lastPen (j.stroke p st)).log? = p.log?.map (· ++ l) := by
  -- Only where a node starts or ends is something recorded.
  have hsame (h : (lastPen (j.stroke p st)).log? = p.log?) :
      ∃ l, l.Sublist [(lastPen (j.stroke p st)).position] ∧
        (lastPen (j.stroke p st)).log? = p.log?.map (· ++ l) :=
    ⟨[], List.nil_sublist _, by simp [h]⟩
  have hsilent (h : st.isSilent = true) : (lastPen (j.stroke p st)).log? = p.log? :=
    congrArg Prod.fst (record_stroke h p)
  cases st with
  | enter span => exact log?_check (lastPen_requireAt span.start p) _ fun q => ⟨rfl, rfl⟩
  | leave span =>
    simp only [stroke, leave]
    split
    · exact log?_check (lastPen_requireFrom span.stop p) _ fun q => ⟨rfl, rfl⟩
    · exact log?_check (lastPen_requireAt span.stop p) _ fun q => ⟨rfl, rfl⟩
  | trail | trailPast => exact hsame rfl
  | _ => exact hsame (hsilent rfl)

/-- What a script records is on its path. -/
theorem log_sublist (script : Script) (p : Pen) :
    ∃ l, l.Sublist (j.path script p) ∧
      (lastPen (j.run script p)).log? = p.log?.map (· ++ l) := by
  induction script generalizing p with
  | nil => exact ⟨[], List.nil_sublist _, by simp⟩
  | cons st script ih =>
    obtain ⟨l, hl, hlog⟩ := stroke_log (j := j) st p
    rw [path, run_cons]
    cases hst : j.stroke p st with
    | error e =>
      rw [hst] at hl hlog
      exact ⟨l, hl.trans (List.sublist_append_right _ _), hlog⟩
    | ok q =>
      rw [hst] at hl hlog
      obtain ⟨l', hl', hlog'⟩ := ih q
      refine ⟨l ++ l', ?_, ?_⟩
      · exact (List.Sublist.append hl hl').trans (List.sublist_append_right _ _)
      · rw [lastPen_ok] at hlog
        simp [Except.bind, hlog', hlog, Function.comp_def]

end Job

end Transcribe
