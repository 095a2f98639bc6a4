/-
  Transcribe.Proofs.Cursor — the cursor moves forward only.

  Writing a node of a faithful tree, the cursor goes through the text from the start of the node
  and never back, however the writing ends. The outline of the node leads from token to token, the
  script of the node keeps to the outline, and a script that keeps to one climbs. What a pen
  records for nodes is on the path of the cursor, so it is in order too.
  - `node_settles`: a node of a faithful tree is written up to a boundary of the text, unless
    something in it is rejected.
  - `cursor_never_goes_back`: the offsets of the cursor, and those recorded for nodes, are in order.
-/

import Transcribe.Proofs.Track.Unit

namespace Transcribe

open Text (Span Source)
open Java (CompilationUnit Node)
open Outline (Reads)

/-- A script climbs and ends at a boundary, unless it stops for a reason that is excused. -/
def Job.Settles (j : Job) (stray : Bool) (script : Script) (p : Pen) : Prop :=
  j.Climbs script p ∧ match j.run script p with
    | .ok q => j.source.Boundary q.position
    | .error e => ∃ P, Excused stray P e.failure

variable {j : Job} {stray : Bool} {u : CompilationUnit}

theorem Tracks.settles {a b : Stance} {m : Outline} {own : Bool} {ns : List Node} {r : Script}
    {o o' : Nat} {p : Pen} (h : Tracks j stray a b m own ns r) (hr : Reads j.source m o o')
    (hp : a.Holds j.source o p) : j.Settles stray r p := by
  obtain ⟨hc, hl⟩ := h hr hp
  refine ⟨hc, ?_⟩
  cases hrun : j.run r p with
  | ok q => rw [hrun] at hl; exact (hl.1.inGap hr.boundary).boundary
  | error e => rw [hrun] at hl; exact ⟨_, hl⟩

theorem Job.Settles.append {r r' : Script} {p : Pen} (h : j.Settles stray r p)
    (h' : ∀ q, j.run r p = .ok q → j.source.Boundary q.position → j.Settles stray r' q) :
    j.Settles stray (r ++ r') p := by
  obtain ⟨hc, hl⟩ := h
  cases hrun : j.run r p with
  | error e =>
    rw [hrun] at hl
    refine ⟨Job.climbs_append hc fun q hq => absurd (hrun.symm.trans hq) (by simp), ?_⟩
    rw [Job.run_append, hrun]
    exact hl
  | ok q =>
    rw [hrun] at hl
    have hq := h' q hrun hl
    refine ⟨Job.climbs_append hc fun q' hq' => ?_, ?_⟩
    · rw [hrun] at hq'
      exact Except.ok.inj hq' ▸ hq.1
    · rw [Job.run_append, hrun]
      exact hq.2

/-! ## Whole files -/

theorem Faithful.reads (h : Faithful j.source u) :
    ∃ stop, Reads j.source (Outline.ofUnit u) 0 stop ∧
      u.span = ⟨j.source.skipSpace false 0, max (j.source.skipSpace false 0) stop⟩ := by
  obtain ⟨stop, hstop, -, hspan⟩ := h
  exact ⟨stop, ⟨Source.boundary_zero, hstop⟩, hspan⟩

/-- A file ends where its last type ends or behind it. -/
theorem settles_end {span : Span} {p : Pen} (h : span.stop ≤ p.position)
    (hb : j.source.Boundary p.position) :
    j.Settles stray [.trailPast span.stop, .leave span] p := by
  have htrail : j.stroke p (.trailPast span.stop)
      = .ok { p with trailing := decide (span.stop < p.position) } := rfl
  have hleave : j.stroke { p with trailing := decide (span.stop < p.position) } (.leave span)
      = .ok { p with trailing := decide (span.stop < p.position) }.note := by
    simp only [Job.stroke, Job.leave, decide_eq_true_eq]
    split
    · rw [Job.requireFrom, if_pos h]; rfl
    · rw [Job.requireAt, if_pos (by simp only []; omega)]; rfl
  have hsize := Source.le_size hb
  refine Job.Settles.append (r := [.trailPast span.stop]) ⟨?_, ?_⟩ fun q hq _ => ?_
  · exact Job.climbs_single (by rw [htrail]; simp [Job.between]) (by rw [htrail]; exact hsize)
  · rw [Job.run_cons, htrail]; exact hb
  · rw [Job.run_cons, htrail] at hq
    obtain rfl := Except.ok.inj hq
    refine ⟨Job.climbs_single (by rw [hleave]; simp [Job.between]) (by rw [hleave]; exact hsize), ?_⟩
    rw [Job.run_cons, hleave]; exact hb

theorem unit_settles (h : Faithful j.source u) (s : Setting) {p : Pen}
    (hp : p.position = u.span.start) : j.Settles stray (Script.ofUnit s u) p := by
  obtain ⟨stop, hr, hspan⟩ := h.reads
  have hgap := Source.inGap_skipSpace false (Source.boundary_zero (s := j.source))
  have hstart : u.span.start = j.source.skipSpace false 0 := by rw [hspan]
  have hq : Stance.within.Holds j.source 0 p.entered := by
    show j.source.InGap 0 p.position
    rwa [hp, hstart]
  have hrest : j.Settles stray (Script.ofPrologue s u
      ++ u.types.flatMap (fun d => .copySpace :: Script.ofDecl s d) ++ Script.ofEpilogue s u
      ++ [Stroke.trailPast u.span.stop, .leave u.span]) p.entered := by
    refine ((Tracks.ofUnitBody s u).settles hr hq).append fun q hrun _ => ?_
    obtain ⟨hc, hl⟩ := (Tracks.ofUnitBody s u : Tracks j stray _ _ _ _ _ _) hr hq
    rw [hrun] at hl
    have hgap : j.source.InGap stop q.position := hl.1
    have hle := Job.le_lastPen hc.ordered _ List.mem_cons_self
    rw [hrun, lastPen_ok, Pen.entered_position, hp, hstart] at hle
    have := hgap.le
    exact settles_end (by rw [hspan]; simp only []; omega) hgap.boundary
  have hscript : Script.ofUnit s u = .enter u.span :: (Script.ofPrologue s u
      ++ u.types.flatMap (fun d => .copySpace :: Script.ofDecl s d) ++ Script.ofEpilogue s u
      ++ [Stroke.trailPast u.span.stop, .leave u.span]) := by
    simp [Script.ofUnit, Script.framed]
  rw [hscript]
  refine ⟨Job.climbs_enter hp (hstart ▸ hgap.boundary) hrest.1, ?_⟩
  rw [Job.run_enter hp]
  exact hrest.2

/-! ## Nodes -/

theorem Faithful.found (h : Faithful j.source u) {n : Node} (hn : n ∈ (Node.unit u).descendants) :
    Outline.Found j.source (Outline.ofNode n) := by
  obtain ⟨stop, hr, -⟩ := h.reads
  exact Outline.found_of_mem_descendants (n := .unit u) ⟨0, stop, hr⟩ hn

/-- A node of a faithful tree starts where a token starts. -/
theorem Faithful.start (h : Faithful j.source u) {n : Node} (hn : n ∈ (Node.unit u).descendants) :
    j.source.Boundary n.span.start ∧ j.source.skipSpace false n.span.start = n.span.start := by
  have hstart : ∃ o, j.source.Boundary o ∧ n.span.start = j.source.skipSpace false o := by
    rcases Outline.eq_or_ne_unit_of_mem_descendants hn with rfl | hu
    · obtain ⟨stop, -, hspan⟩ := h.reads
      exact ⟨0, Source.boundary_zero, by rw [Node.span, hspan]⟩
    · obtain ⟨m, hm⟩ := Outline.ofNode_framed hu
      obtain ⟨o, o', hr⟩ := h.found hn
      rw [hm, Outline.reads_framed] at hr
      exact ⟨o, hr.1, hr.2.1⟩
  obtain ⟨o, ho, hstart⟩ := hstart
  rw [hstart]
  exact ⟨(Source.inGap_skipSpace false ho).boundary, Source.skipSpace_skipSpace false ho⟩

/-- A node of a faithful tree can be read from anywhere in the gap in front of it. -/
theorem Faithful.reads_node (h : Faithful j.source u) {n : Node}
    (hn : n ∈ (Node.unit u).descendants) (hu : ∀ u', n ≠ .unit u') {x : Nat}
    (hx : j.source.InGap x n.span.start) : ∃ o', Reads j.source (Outline.ofNode n) x o' := by
  obtain ⟨m, hm⟩ := Outline.ofNode_framed hu
  obtain ⟨o, o', hr⟩ := h.found hn
  rw [hm] at hr ⊢
  exact ⟨o', Outline.reads_of_inGap hr hx⟩

/-- A node of a faithful tree is written up to a boundary of the text, unless something in it is
rejected. -/
theorem node_settles (h : Faithful j.source u) {n : Node} (hn : n ∈ (Node.unit u).descendants)
    (s : Setting) (hs : stray = false → ∀ t, n = .stmt t → s.inBody = true) {p : Pen}
    (hp : p.position = n.span.start) : j.Settles stray (Script.ofNode s n) p := by
  rcases Outline.eq_or_ne_unit_of_mem_descendants hn with rfl | hu
  · exact unit_settles h s hp
  · obtain ⟨ns, htracks⟩ := Tracks.ofNode (j := j) s hu hs
    obtain ⟨hb, hfix⟩ := h.start hn
    obtain ⟨o', hr⟩ := h.reads_node hn hu (.refl hb)
    exact htracks.settles hr (hp.trans hfix.symm)

/-! ## The record of nodes -/

theorem ofNode_enter (s : Setting) (n : Node) : ∃ r, Script.ofNode s n = .enter n.span :: r := by
  cases n with
  | type t => cases t <;> exact ⟨_, by rw [Script.ofNode, Script.ofType]; rfl⟩
  | modifier d => cases d <;> exact ⟨_, rfl⟩
  | decl d => exact ⟨_, by rw [Script.ofNode, Script.ofDecl, Script.ofMember]; rfl⟩
  | stmt t => cases t <;> exact ⟨_, by rw [Script.ofNode, Script.ofStmt]; rfl⟩
  | expr e => cases e <;> exact ⟨_, by rw [Script.ofNode, Script.ofExpr]; rfl⟩
  | _ => exact ⟨_, rfl⟩

/-- Writing a node of a faithful tree from its start on, the cursor never goes back and never
leaves the text, and neither do the offsets recorded where nodes start and end. -/
theorem cursor_never_goes_back (j : Job) (u : CompilationUnit) (hu : Faithful j.source u) (n : Node)
    (hn : n ∈ (Node.unit u).descendants) (s : Setting) (p : Pen) (hp : p.position = n.span.start) :
    (p.position :: j.path (Script.ofNode s n) p).Pairwise (· ≤ ·) ∧
    (∀ x ∈ p.position :: j.path (Script.ofNode s n) p, x ≤ j.source.size) ∧
    (p.log? = some [] → ∃ log, (lastPen (j.run (Script.ofNode s n) p)).log? = some log ∧
      log.head? = some n.span.start ∧ log.Pairwise (· ≤ ·)) := by
  have hsettles : j.Settles true (Script.ofNode s n) p := node_settles hu hn s (by simp) hp
  have hs := hsettles.1
  refine ⟨hs.ordered, ?_, fun hlog => ?_⟩
  · rw [List.forall_mem_cons]
    exact ⟨hp ▸ Source.le_size (hu.start hn).1, hs.inside⟩
  · obtain ⟨r, hr⟩ := ofNode_enter s n
    obtain ⟨l, hl, hrest⟩ := Job.log_sublist (j := j) r p.entered
    have hpath : j.path (.enter n.span :: r) p = p.position :: j.path r p.entered := by
      rw [Job.path, Job.stroke_enter hp]; rfl
    have hord := hs.ordered
    rw [hr, hpath] at hord
    refine ⟨p.position :: l, ?_, by rw [hp]; rfl, ?_⟩
    · rw [hr, Job.run_enter hp, hrest]
      simp [Pen.entered, Pen.note, hlog]
    · exact (List.pairwise_cons.1 hord).2.sublist (hl.cons_cons _)

theorem cursor_never_goes_back_sample :
    ∃ log, (lastPen ((Job.mk sampleSource .cpp).run
        (Script.ofNode { Setting.ofProfile .cpp with part := .source } (.method sampleMethod))
        { (Job.mk sampleSource .cpp).pen with position := 72, log? := some [] })).log? = some log ∧
      log.head? = some 72 ∧ log.Pairwise (· ≤ ·) :=
  (cursor_never_goes_back ⟨sampleSource, .cpp⟩ sampleUnit sample_faithful (.method sampleMethod)
    sampleMethod_mem _ _ rfl).2.2 rfl

end Transcribe
