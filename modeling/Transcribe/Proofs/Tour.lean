/-
  Transcribe.Proofs.Tour — every child of a node is written once, in order.

  The record of a node is the tour of its tree: where it starts, the tours of the children that are
  written, where it stops. Modifiers and the types a method throws are replaced as a whole, and the
  bodies of methods stand apart in a C++ header.

  A stroke that starts or ends a node records an offset (`visit?`). If no stroke of a script stops
  it and none lets a node end behind its span, the record of a run is what its strokes record, in
  order; so the record can be read off the script, and a script is woven from those of its children.
  - `Visits`: which offsets a script records if nothing stops it.
  - `Visits.ofNode`: the script of a node records its tour.
  - `log_eq_tour`: so does every node of a text that parses.
-/

import Transcribe.Proofs.Cursor
import Transcribe.Proofs.ChildScripts

namespace Transcribe

open Text (Span)

/-! ## Tours -/

namespace Java.Node

/-- The offsets at which a node and the nodes below it start and stop, in the order in which one
walks around the tree. -/
def tour (bodies : Bool) (n : Node) : List Nat :=
  n.span.start :: (n.visited bodies).attach.flatMap (fun c => tour bodies c.1) ++ [n.span.stop]
termination_by n.descendants.length
decreasing_by exact Outline.length_descendants_lt (mem_children_of_visited c.2)

theorem tour_eq (bodies : Bool) (n : Node) : n.tour bodies
    = n.span.start :: (n.visited bodies).flatMap (tour bodies) ++ [n.span.stop] := by
  rw [tour]
  congr 2
  simp [List.flatMap_subtype]

end Java.Node

/-! ## What a script records -/

namespace Stroke

def visit? : Stroke → Option Nat
  | .enter span => some span.start
  | .leave span => some span.stop
  | _ => none

/-- Strokes after which a node may end behind its span. -/
def isTrail : Stroke → Bool
  | .trail | .trailPast _ => true
  | _ => false

end Stroke

namespace Job

variable {j : Job} {p q : Pen}

theorem isStop_of_stroke {st : Stroke} (h : j.stroke p st = .ok q) : st.isStop = false := by
  cases st with
  | reject what | breach what => exact absurd h stop_ne_ok
  | _ => rfl

theorem isStop_of_run {r : Script} (h : j.run r p = .ok q) : ∀ st ∈ r, st.isStop = false := by
  induction r generalizing p with
  | nil => simp
  | cons st r ih =>
    obtain ⟨mid, hmid, hq⟩ := run_cons_eq_ok.1 h
    exact List.forall_mem_cons.2 ⟨isStop_of_stroke hmid, ih hq⟩

/-- A stroke records its offset, since it can only be made there. -/
theorem log_of_stroke {st : Stroke} (h : j.stroke p st = .ok q) (hst : st.isTrail = false)
    (hp : p.trailing = false) :
    q.trailing = false ∧ q.log? = p.log?.map (· ++ st.visit?.toList) := by
  have hsilent (hs : st.isSilent = true) : q.record = p.record := by
    have hrecord := record_stroke (j := j) hs p
    rwa [h] at hrecord
  have hsame (hs : st.isSilent = true) :
      q.trailing = false ∧ q.log? = p.log?.map (· ++ []) := by
    refine ⟨(congrArg Prod.snd (hsilent hs)).trans hp, ?_⟩
    have hlog : q.log? = p.log? := congrArg Prod.fst (hsilent hs)
    simp [hlog]
  cases st with
  | enter span =>
    obtain ⟨hpos, rfl⟩ := enter_eq_ok.1 h
    exact ⟨rfl, by simp [Pen.note, Stroke.visit?, hpos]⟩
  | leave span =>
    obtain ⟨rfl, hpos⟩ := leave_eq_ok h
    exact ⟨hp, by simp [Pen.note, Stroke.visit?, hpos hp]⟩
  | trail | trailPast => cases hst
  | _ => exact hsame rfl

theorem log_of_run {r : Script} (h : j.run r p = .ok q) (hr : ∀ st ∈ r, st.isTrail = false)
    (hp : p.trailing = false) :
    q.log? = p.log?.map (· ++ r.filterMap Stroke.visit?) := by
  induction r generalizing p with
  | nil =>
    cases h
    simp
  | cons st r ih =>
    obtain ⟨mid, hmid, hq⟩ := run_cons_eq_ok.1 h
    obtain ⟨hst, hr⟩ := List.forall_mem_cons.1 hr
    obtain ⟨hmid', hlog⟩ := log_of_stroke hmid hst hp
    have hcons : (st :: r).filterMap Stroke.visit?
        = st.visit?.toList ++ r.filterMap Stroke.visit? := by
      cases hv : st.visit? <;> simp [hv]
    rw [ih hq hr hmid', hlog, hcons]
    simp [Function.comp_def]

end Job

def Visits (r : Script) (l : List Nat) : Prop :=
  (∀ st ∈ r, st.isStop = false) →
    r.filterMap Stroke.visit? = l ∧ ∀ st ∈ r, st.isTrail = false

namespace Visits

variable {r r' : Script} {l l' : List Nat} {st : Stroke}

theorem nil : Visits [] [] := fun _ => ⟨rfl, by simp⟩

theorem append (h : Visits r l) (h' : Visits r' l') : Visits (r ++ r') (l ++ l') := by
  intro hstop
  obtain ⟨hr, hr'⟩ := List.forall_mem_append.1 hstop
  obtain ⟨rfl, hl⟩ := h hr
  obtain ⟨rfl, hl'⟩ := h' hr'
  exact ⟨List.filterMap_append, List.forall_mem_append.2 ⟨hl, hl'⟩⟩

/-- Strokes that record nothing. -/
theorem silent (h : r.all Stroke.isSilent = true) : Visits r [] := by
  have hst : ∀ st : Stroke, st.isSilent = true → st.visit? = none ∧ st.isTrail = false := by
    intro st hs
    cases st <;> first | exact ⟨rfl, rfl⟩ | cases hs
  intro _
  refine ⟨List.filterMap_eq_nil_iff.2 fun st hm => ?_, fun st hm => ?_⟩
  · exact (hst st (List.all_eq_true.1 h st hm)).1
  · exact (hst st (List.all_eq_true.1 h st hm)).2

/-- A script that cannot be run. -/
theorem stop (hst : st.isStop = true) (hm : st ∈ r) : Visits r l := by
  intro hstop
  rw [hstop st hm] at hst
  cases hst

/-! ## Nodes -/

open Java (Node)

variable {b : Bool} {s : Setting}

theorem frame (n : Node) (h : Visits r ((n.visited b).flatMap (Node.tour b))) :
    Visits (Script.framed n.span r) (n.tour b) := by
  intro hstop
  obtain ⟨hl, htrail⟩ := h fun st hm => hstop st (by simp [Script.framed, hm])
  rw [Node.tour_eq]
  refine ⟨by simp [Script.framed, Stroke.visit?, hl], ?_⟩
  simpa [Script.framed, Stroke.isTrail, or_imp, forall_and] using htrail

/-- A type that stands by itself takes the space behind it in C++; any other ends with its span, as
all other nodes do. -/
theorem own {n : Node} {bs : List Char} (h : Own s n bs st)
    (hout : ∀ d, n = .decl d → (s.isCpp && Script.isOutermost s d.head) = false) :
    Visits [st] [] := by
  refine silent ?_
  cases h with
  | fixed _ h =>
    rw [List.all_cons, (Bool.and_eq_true_iff.1 h).2]
    rfl
  | trail h => exact absurd (hout _ rfl) (by simp [h])
  | _ => rfl

theorem ofWeaves {n : Node} {ns : List Node} (h : Weaves s n r ns)
    (hout : ∀ d, n = .decl d → (s.isCpp && Script.isOutermost s d.head) = false)
    (hc : ∀ c ∈ ns, ∀ k, s.Hands n c k → Visits (Script.ofNode k c) (c.tour b)) :
    Visits r (ns.flatMap (Node.tour b)) := by
  induction h with
  | nil => exact nil
  | own hst => exact own hst hout
  | child hk => simpa using hc _ (List.mem_singleton.2 rfl) _ hk
  | append _ _ ih ih' =>
    obtain ⟨hns, hns'⟩ := List.forall_mem_append.1 hc
    rw [List.flatMap_append]
    exact (ih hns).append (ih' hns')
  | pair _ hst hst' _ ih =>
    have h := ((own hst hout).append (ih hc)).append (own hst' hout)
    simpa using h
  | stop _ hm hst => exact stop hst hm

theorem mem_body_of_children {d e : Java.TypeDecl} (h : .decl d ∈ (Node.decl e).children) :
    .type d.head d.body ∈ e.body := by
  rcases List.mem_append.1 h with h | h
  · simp [Node.childrenOfHead, Node.ofName] at h
  · obtain ⟨m, hm, hd⟩ := List.mem_map.1 h
    cases m with
    | type head body =>
      cases hd
      exact hm
    | _ => cases hd

/-- The script of a node records its tour. -/
theorem ofNode {n : Node} (hunit : ∀ u, n ≠ .unit u) (hwide : n.All Node.Wider)
    (hout : ∀ d, n = .decl d → (s.isCpp && Script.isOutermost s d.head) = false) :
    Visits (Script.ofNode s n) (n.tour s.keepsBodies) := by
  refine ofNode_induction (M := fun s n => n.All Node.Wider →
    (∀ d, n = .decl d → (s.isCpp && Script.isOutermost s d.head) = false) →
    Visits (Script.ofNode s n) (n.tour s.keepsBodies))
    (fun s n body hbody hweaves hc hwide hout => ?_) s n hunit hwide hout
  rw [hbody]
  refine frame n (ofWeaves hweaves hout fun c hm k hk => ?_)
  have hchild := Node.mem_children_of_visited hm
  have hkeeps : k.keepsBodies = s.keepsBodies := by
    simp [Setting.keepsBodies, Setting.isCpp, Setting.defining, hk.profile, hk.part]
  rw [← hkeeps]
  refine hc c hm k hk (hwide.child hchild) ?_
  rintro d rfl
  -- A type inside another one is not the same as that one.
  obtain ⟨e, rfl, henclosing⟩ := hk.enclosing d rfl
  have hne := hwide.self e rfl d.head d.body (mem_body_of_children hchild)
  simp [Script.isOutermost, henclosing, Ne.symm hne]

end Visits

/-- What the run of a node's script records. The node is entered first, so it does not matter how
the one before was left. -/
theorem Visits.log {j : Job} {s : Setting} {n : Java.Node} {l : List Nat} {p q : Pen}
    (h : Visits (Script.ofNode s n) l) (hrun : j.run (Script.ofNode s n) p = .ok q) :
    q.log? = p.log?.map (· ++ l) := by
  obtain ⟨rfl, htrail⟩ := h (Job.isStop_of_run hrun)
  obtain ⟨r, hr⟩ := ofNode_enter s n
  rw [hr] at hrun htrail ⊢
  obtain ⟨mid, hmid, hrest⟩ := Job.run_cons_eq_ok.1 hrun
  obtain ⟨hpos, rfl⟩ := Job.enter_eq_ok.1 hmid
  rw [Job.log_of_run hrest (List.forall_mem_cons.1 htrail).2 rfl]
  simp [Pen.note, Stroke.visit?, hpos, Function.comp_def]

/-- Writing a node of a text that parses, the offsets recorded are the tour of its tree: no child is
left out or written twice. -/
theorem log_eq_tour {name text : String} {u : Java.Parsed} (h : Java.parse name text = .ok u)
    {n : Java.Node} (hn : n ∈ (Java.Node.unit u.unit).descendants) (hunit : ∀ v, n ≠ .unit v)
    (profile : Target.Profile) (s : Setting)
    (hout : ∀ d, n = .decl d → (s.isCpp && Script.isOutermost s d.head) = false) {p q : Pen}
    {log : List Nat} (hlog : p.log? = some log)
    (hrun : (Job.mk u.source profile).run (Script.ofNode s n) p = .ok q) :
    q.log? = some (log ++ n.tour s.keepsBodies) := by
  have hwide : n.All Java.Node.Wider :=
    Outline.of_mem_descendants (P := fun n => n.All Java.Node.Wider) (fun _ _ hall => hall.child) _
      (Java.wider_of_parse h) n hn
  rw [(Visits.ofNode hunit hwide hout).log hrun, hlog]
  rfl

def tourText : String := "class A{class B{int f(int n)throws E{return n;}}}"

def innerSetting (u : Java.CompilationUnit) : Setting :=
  { Setting.ofProfile .cpp with enclosing? := u.types.head?.map (·.head) }

def recorder (u : Java.Parsed) (n : Java.Node) : Pen :=
  { (Job.mk u.source .cpp).pen with position := n.span.start, log? := some [] }

theorem log_eq_tour_sample : ∃ u d q, Java.parse "A.java" tourText = .ok u ∧
    .decl d ∈ (Java.Node.unit u.unit).descendants ∧
    (Job.mk u.source .cpp).run (Script.ofNode (innerSetting u.unit) (.decl d))
      (recorder u (.decl d)) = .ok q ∧
    q.log? = some ((Java.Node.decl d).tour false) := by
  have hcheck : (Java.parse "A.java" tourText).toOption.any (fun u =>
      (Java.Node.unit u.unit).descendants.any fun
        | .decl d => !Script.isOutermost (innerSetting u.unit) d.head &&
          ((Job.mk u.source .cpp).run (Script.ofNode (innerSetting u.unit) (.decl d))
            (recorder u (.decl d))).toOption.isSome
        | _ => false) = true := by decide +kernel
  obtain ⟨u, hu⟩ : ∃ u, Java.parse "A.java" tourText = .ok u :=
    Java.exists_parsed (by decide +kernel)
  rw [hu] at hcheck
  obtain ⟨n, hn, hcheck⟩ := List.any_eq_true.1 hcheck
  cases n with
  | decl d =>
    obtain ⟨hout, hrun⟩ := Bool.and_eq_true_iff.1 hcheck
    cases hq : (Job.mk u.source .cpp).run (Script.ofNode (innerSetting u.unit) (.decl d))
        (recorder u (.decl d)) with
    | error e => rw [hq] at hrun; cases hrun
    | ok q =>
      refine ⟨u, d, q, hu, hn, hq, ?_⟩
      refine log_eq_tour hu hn (by simp) .cpp _ ?_ rfl hq
      rintro d' heq
      cases heq
      simp [Bool.not_eq_true' _ ▸ hout]
  | _ => cases hcheck

end Transcribe
