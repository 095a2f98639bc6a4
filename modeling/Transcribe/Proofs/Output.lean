/-
  Transcribe.Proofs.Output — the files of a faithful tree.

  A file is written from several places of the source: the lines in front of the types, one type,
  and the methods of that type one by one. Each part starts where a node starts and keeps to the
  node's outline, so only a construct that the target rejects can stop it.

  A script is `StoppedBy` nodes: it ends if there are none, and otherwise is rejected inside one of
  them. `Blames` says the same of an outcome, so that it can be put together over the parts of a
  file and over the files of a source. Which nodes may keep the files of a type from being written
  (`declFaults`) is read off the tree: imports, the type as its declaration has it and, in C++, the
  methods that get a definition.
  - `faithful_output_sound`: no promise about the cursor is ever broken.
  - `files_rejected_iff`: the files are written exactly if the tree has no rejected construct, and
    otherwise the rejection is placed inside one.
-/

import Transcribe.Proofs.Cursor
import Transcribe.Output.Basic

namespace Transcribe

open Text (Span Source)
open Java (CompilationUnit Node TypeDecl TypeHead Member Method)
open Outline (Reads)
open Output (Definition)

variable {j : Job} {u : CompilationUnit}

/-! ## Runs that only reject -/

/-- The nodes that stop a script: it ends if there are none, and otherwise is rejected inside one
of them. -/
def Job.StoppedBy (j : Job) (ns : List Node) (script : Script) (p : Pen) : Prop :=
  match j.run script p with
  | .ok q => j.source.Boundary q.position ∧ ns = []
  | .error e => ∃ what place, e.failure = .rejected what place ∧
      ∃ n ∈ ns, n.span.contains place.offset = true

theorem Excused.rejected {P : Nat → Prop} {f : Failure} (h : Excused false P f) :
    ∃ what place, f = .rejected what place ∧ P place.offset := by
  unfold Excused at h
  split at h
  · exact ⟨_, _, rfl, h⟩
  · cases h
  · cases h

theorem Tracks.stoppedBy {a b : Stance} {m : Outline} {ns : List Node} {r : Script} {o o' : Nat}
    {p : Pen} (h : Tracks j false a b m false ns r) (hr : Reads j.source m o o')
    (hp : a.Holds j.source o p) : j.StoppedBy ns r p := by
  obtain ⟨-, hl⟩ := h hr hp
  unfold Job.StoppedBy
  cases hrun : j.run r p with
  | ok q => rw [hrun] at hl; exact ⟨(hl.1.inGap hr.boundary).boundary, hl.2.2⟩
  | error e =>
    rw [hrun] at hl
    obtain ⟨what, place, hf, hblamed⟩ := Excused.rejected hl
    rcases hblamed with ⟨hown, -⟩ | hblamed
    · cases hown
    · exact ⟨what, place, hf, hblamed⟩

namespace Job

variable {ns ns' : List Node} {r r' : Script} {p : Pen}

theorem StoppedBy.append (h : j.StoppedBy ns r p)
    (h' : ∀ q, j.run r p = .ok q → j.source.Boundary q.position → j.StoppedBy ns' r' q) :
    j.StoppedBy (ns ++ ns') (r ++ r') p := by
  unfold StoppedBy at h ⊢
  rw [run_append]
  cases hrun : j.run r p with
  | error e =>
    rw [hrun] at h
    obtain ⟨what, place, hf, n, hn, hc⟩ := h
    exact ⟨what, place, hf, n, List.mem_append_left _ hn, hc⟩
  | ok q =>
    rw [hrun] at h
    obtain ⟨hb, rfl⟩ := h
    have := h' q hrun hb
    rwa [StoppedBy] at this

theorem StoppedBy.flatMap {α : Type} {as : List α} {f : α → Script} {k : α → List Node}
    (h : ∀ a ∈ as, ∀ q : Pen, j.source.Boundary q.position → j.StoppedBy (k a) (f a) q)
    (hp : j.source.Boundary p.position) : j.StoppedBy (as.flatMap k) (as.flatMap f) p := by
  induction as generalizing p with
  | nil => exact ⟨hp, rfl⟩
  | cons a as ih =>
    rw [List.flatMap_cons, List.flatMap_cons]
    refine (h a List.mem_cons_self p hp).append fun q _ hq => ?_
    exact ih (fun b hb => h b (List.mem_cons_of_mem _ hb)) hq

theorem StoppedBy.exists_ok (h : j.StoppedBy [] r p) : ∃ q, j.run r p = .ok q := by
  unfold StoppedBy at h
  split at h
  · rename_i q hq
    exact ⟨q, hq⟩
  · obtain ⟨-, -, -, n, hn, -⟩ := h
    cases hn

/-- The same behind strokes that have been made. -/
theorem StoppedBy.after {q : Pen} (hrun : j.run r p = .ok q) (h : j.StoppedBy ns r' q) :
    j.StoppedBy ns (r ++ r') p := by
  unfold StoppedBy at h ⊢
  rwa [run_append, hrun]

end Job

namespace Tracks

/-- Strokes that read nothing go on from any boundary. -/
theorem stoppedBy_nil {r : Script} {p : Pen} (h : Tracks j false .within .within [] false [] r)
    (hp : j.source.Boundary p.position) : j.StoppedBy [] r p :=
  h.stoppedBy (Outline.reads_nil.2 ⟨hp, rfl⟩) (.refl hp)

theorem copyTrail {stray : Bool} : Tracks j stray .within .within [] false [] [.copyTrail] := by
  refine of_stroke (fun _ => rfl) fun o o' p hr hp => ?_
  obtain ⟨-, rfl⟩ := Outline.reads_nil.1 hr
  obtain ⟨q, hq, hpos, -⟩ := Job.exists_copySpace true (p := p) hp.boundary
  have hg := Source.inGap_skipSpace true hp.boundary
  rw [← hpos] at hg
  cases ht : p.trailing with
  | true => exact ⟨p, by rw [Job.stroke, ht]; rfl, Nat.le_refl _, hp⟩
  | false => exact ⟨q, by rw [Job.stroke, ht]; exact hq, hg.le, Source.InGap.trans hp hg⟩

theorem undent {stray : Bool} {a : Stance} : Tracks j stray a a [] false [] [.undent] :=
  still (fun _ => rfl) fun _ => ⟨_, rfl, rfl, rfl⟩

end Tracks

/-! ## Declarations -/

theorem mem_descendants_of_mem_decl {d : TypeDecl} (hd : d ∈ u.types) {n : Node}
    (hn : n ∈ (Node.decl d).descendants) : n ∈ (Node.unit u).descendants := by
  rw [Node.descendants_eq, List.mem_cons, List.mem_flatMap]
  exact .inr ⟨.decl d, by simp [Node.children, hd], hn⟩

theorem decl_mem_descendants {d : TypeDecl} (hd : d ∈ u.types) :
    Node.decl d ∈ (Node.unit u).descendants := by
  refine mem_descendants_of_mem_decl hd ?_
  rw [Node.descendants_eq]
  exact List.mem_cons_self

/-- What a type's file starts with leads to the type. -/
theorem run_leadScript (h : Faithful j.source u) {ds ds' : List TypeDecl} {d : TypeDecl}
    (hd : u.types = ds ++ d :: ds') (p : Pen) :
    ∃ q, j.run (Output.leadScript u ds.length d) p = .ok q ∧
      j.source.InGap q.position d.head.span.start := by
  unfold Output.leadScript
  split
  · rename_i hfirst
    simp only [Bool.and_eq_true, beq_iff_eq, List.length_eq_zero_iff, Option.isNone_iff_eq_none,
      List.isEmpty_iff] at hfirst
    obtain ⟨⟨rfl, hpackage⟩, himports⟩ := hfirst
    obtain ⟨stop, hr, -⟩ := h.reads
    simp only [Outline.ofUnit, hpackage, himports, hd, Option.toList_none, List.flatMap_nil,
      List.nil_append, List.flatMap_cons] at hr
    obtain ⟨x, hr, -⟩ := Outline.reads_append.1 hr
    rw [Outline.ofDecl, Outline.ofMember] at hr
    obtain ⟨hb, hstart, -⟩ := Outline.reads_framed.1 hr
    exact ⟨p.moveTo 0, rfl, hstart ▸ Source.inGap_skipSpace false hb⟩
  · have hmem := decl_mem_descendants (u := u) (d := d) (by simp [hd])
    exact ⟨p.moveTo _, rfl, Source.inGap_leadStart (h.start hmem).1⟩

theorem keepsBodies_ofProfile (p : Target.Profile) :
    (Setting.ofProfile p).keepsBodies = !p.isCpp := by
  simp [Setting.keepsBodies, Setting.defining, Setting.isCpp, Setting.ofProfile]

theorem declarationScript_stoppedBy (h : Faithful j.source u) {ds ds' : List TypeDecl} {d : TypeDecl}
    (hd : u.types = ds ++ d :: ds') :
    j.StoppedBy (faults j.profile.isCpp (u.imports.map .importing)
        ++ faults j.profile.isCpp (writtenMember (!j.profile.isCpp) (.type d.head d.body)))
      (Output.declarationScript j.profile u ds.length d) j.pen := by
  let s := Setting.ofProfile j.profile
  obtain ⟨stop, hr, -⟩ := h.reads
  obtain ⟨x, hprologue, -⟩ := Outline.reads_append.1 hr
  have hmem := decl_mem_descendants (u := u) (d := d) (by simp [hd])
  rw [← keepsBodies_ofProfile, ← List.append_nil (faults _ (writtenMember _ _))]
  have hpen : Stance.within.Holds j.source 0 j.pen := .refl Source.boundary_zero
  simp only [Output.declarationScript, List.append_assoc]
  refine ((Tracks.ofPrologue s u).stoppedBy hprologue hpen).append fun q _ _ => ?_
  obtain ⟨q', hlead, hgap⟩ := run_leadScript h hd q
  obtain ⟨o', hr⟩ := h.reads_node hmem (by simp) hgap
  have hstart : Stance.within.Holds j.source q'.position q' :=
    .refl (Source.boundary_of_inGap_left hgap)
  refine Job.StoppedBy.after hlead (Job.StoppedBy.append ?_ fun q'' _ hb => ?_)
  · exact (Tracks.ofMember s (.type d.head d.body)).space.stoppedBy hr hstart
  · exact (Tracks.copyTrail.cons (Tracks.ofEpilogue s u)).stoppedBy_nil hb

/-! ## Definitions -/

/-- The strokes in front of a definition lead to the method. -/
theorem run_definitionLead {o : Nat} (ho : j.source.Boundary o)
    (hfix : j.source.skipSpace false o = o) (p : Pen) :
    ∃ q, j.run [.newline, .moveToLead o, .skipBlankLines, .dedentBy o, .copySpace] p = .ok q ∧
      q.position = o := by
  have hlead := Source.inGap_leadStart ho
  have hblank := Source.inGap_skipBlankLines (Source.boundary_of_inGap_left hlead)
  obtain ⟨column, hcolumn⟩ := Source.exists_column j.ruler ho
  let p' : Pen := { j.skipBlankLines ((j.newline p).moveTo (j.source.leadStart o)) with
    dedent := column }
  obtain ⟨q, hq, hpos, -⟩ := Job.exists_copySpace false (p := p') hblank.boundary
  refine ⟨q, ?_, ?_⟩
  · simp only [Job.run_cons, Job.stroke, Except.bind, hcolumn]
    rw [show j.copySpace false _ = .ok q from hq]
    rfl
  · calc q.position = j.source.skipSpace false (j.source.skipBlankLines (j.source.leadStart o)) := hpos
      _ = j.source.skipSpace false (j.source.leadStart o) := Source.skipSpace_eq_of_inGap hblank
      _ = j.source.skipSpace false o := (Source.skipSpace_eq_of_inGap hlead).symm
      _ = o := hfix

/-- One definition is written from the method's place in the source. -/
theorem definitionScript_stoppedBy (h : Faithful j.source u) {d : Definition}
    (hd : Node.method d.method ∈ (Node.unit u).descendants) (hcpp : j.profile.isCpp = true)
    (p : Pen) :
    j.StoppedBy (faults j.profile.isCpp (Node.underMethod d.method))
      (Output.definitionScript j.profile d) p := by
  let s : Setting := { Setting.ofProfile j.profile with
    part := .source, qualifier := d.qualifier, enclosing? := some d.owner }
  have hbodies : s.keepsBodies = true := by
    simp [s, Setting.keepsBodies, Setting.defining, Setting.isCpp, Setting.ofProfile, hcpp]
  obtain ⟨hb, hfix⟩ := h.start hd
  obtain ⟨q, hlead, hpos⟩ := run_definitionLead hb hfix p
  obtain ⟨o', hr⟩ := h.reads_node hd (by simp) (.refl hb)
  have hmethod : Tracks j false .before .behind (Outline.ofMethod d.method) false
      (faults j.profile.isCpp (Node.underMethod d.method)) (Script.ofMethod s d.method) := by
    rw [← writtenMethod_true, ← hbodies]
    exact Tracks.ofMethod s d.method
  simp only [Output.definitionScript, List.append_assoc]
  rw [← List.append_nil (faults _ _)]
  refine Job.StoppedBy.after hlead (Job.StoppedBy.append ?_ fun q' _ hb' => ?_)
  · exact hmethod.stoppedBy hr (hpos.trans hfix.symm)
  · exact (Tracks.copyTrail.cons (Tracks.undent.cons Tracks.newline)).stoppedBy_nil hb'

mutual

/-- A member's nodes are those of its declaration and those of its definitions. -/
theorem mem_underMember_iff (owner : TypeHead) (qualifier : String) (m : Member) (n : Node) :
    n ∈ Node.underMember m ↔ n ∈ writtenMember false m ∨
      ∃ d ∈ Output.definitionsOf owner qualifier m, n ∈ Node.underMethod d.method := by
  cases m with
  | field f => simp [Node.underMember, writtenMember, Output.definitionsOf]
  | method m =>
    rw [Node.underMember, writtenMember, Output.definitionsOf]
    cases hb : m.body? with
    | none => simp [writtenMethod, Node.underMethod, hb]
    | some b =>
      simp only [Option.isSome_some, if_true, List.mem_singleton, exists_eq_left]
      simp only [writtenMethod, Node.underMethod, List.mem_append, Bool.false_eq_true, if_false,
        List.not_mem_nil, or_false]
      grind
  | type h body =>
    rw [Node.underMember, writtenMember, Output.definitionsOf, List.cons_append, List.cons_append,
      List.mem_cons, List.mem_cons, List.mem_append, List.mem_append,
      mem_underMembers_iff h (qualifier ++ "::" ++ h.name.text) body n]
    grind

theorem mem_underMembers_iff (owner : TypeHead) (qualifier : String) (ms : List Member) (n : Node) :
    n ∈ Node.underMembers ms ↔ n ∈ writtenMembers false ms ∨
      ∃ d ∈ Output.definitionsIn owner qualifier ms, n ∈ Node.underMethod d.method := by
  cases ms with
  | nil => simp [Node.underMembers, writtenMembers, Output.definitionsIn]
  | cons m ms =>
    rw [Node.underMembers, writtenMembers, Output.definitionsIn, List.mem_append, List.mem_append,
      mem_underMember_iff owner qualifier m n, mem_underMembers_iff owner qualifier ms n]
    simp only [List.mem_append, or_and_right, exists_or]
    grind

end

theorem mem_decl_iff (d : TypeDecl) (n : Node) :
    n ∈ (Node.decl d).descendants ↔ n ∈ writtenMember false (.type d.head d.body) ∨
      ∃ f ∈ Output.definitions d, n ∈ Node.underMethod f.method := by
  rw [Node.descendants_decl, Node.underMember, writtenMember, List.cons_append, List.cons_append,
    List.mem_cons, List.mem_cons, List.mem_append, List.mem_append,
    mem_underMembers_iff d.head d.head.name.text d.body n, Output.definitions]
  grind

theorem method_mem_descendants {d : TypeDecl} (hd : d ∈ u.types) {f : Definition}
    (hf : f ∈ Output.definitions d) : Node.method f.method ∈ (Node.unit u).descendants := by
  refine mem_descendants_of_mem_decl hd ((mem_decl_iff d _).2 (.inr ⟨f, hf, ?_⟩))
  rw [Node.underMethod_eq]
  exact List.mem_cons_self

theorem definitionsScript_stoppedBy (h : Faithful j.source u) (hcpp : j.profile.isCpp = true)
    {d : TypeDecl} (hd : d ∈ u.types) :
    j.StoppedBy ((Output.definitions d).flatMap fun f =>
        faults j.profile.isCpp (Node.underMethod f.method))
      (Output.definitionsScript j.profile u d) j.pen := by
  have hopen (t : String) : Tracks j false .within .within [] false [] (.write t :: .newline
      :: u.package?.toList.flatMap fun k => .newline :: Script.openNamespace k) := by
    refine (Tracks.write t).cons (Tracks.newline.cons ?_)
    cases u.package? with
    | none => exact .nil
    | some k => simpa using Tracks.newline.cons (Tracks.openNamespace k)
  have hclose : Tracks j false .within .within [] false []
      (if u.package?.isSome then [.newline, .write "\x7d", .newline] else []) :=
    Tracks.optional _ (Tracks.newline.cons ((Tracks.write "\x7d").cons Tracks.newline))
  have hdefinitions : ∀ f ∈ Output.definitions d, ∀ q : Pen, j.source.Boundary q.position →
      j.StoppedBy (faults j.profile.isCpp (Node.underMethod f.method))
        (Output.definitionScript j.profile f) q :=
    fun f hf q _ => definitionScript_stoppedBy h (method_mem_descendants hd hf) hcpp q
  rw [← List.append_nil (List.flatMap _ _)]
  have hstart := (hopen ("#include \x22" ++ d.head.name.text ++ "." ++ j.profile.language.extension
    ++ "\x22")).stoppedBy_nil (p := j.pen) Source.boundary_zero
  refine (hstart.append fun q _ hq => ?_).append fun q _ hq => ?_
  · exact Job.StoppedBy.flatMap hdefinitions hq
  · exact hclose.stoppedBy_nil hq

/-! ## Files -/

def Blames {α : Type} (ns : List Node) : Except Failure α → Prop
  | .ok _ => ns = []
  | .error f => ∃ what place, f = .rejected what place ∧
      ∃ n ∈ ns, n.span.contains place.offset = true

theorem Blames.bind {α β : Type} {ns ns' : List Node} {r : Except Failure α}
    {f : α → Except Failure β} (h : Blames ns r) (hf : ∀ a, Blames ns' (f a)) :
    Blames (ns ++ ns') (r >>= f) := by
  cases r with
  | error e =>
    obtain ⟨what, place, he, n, hn, hc⟩ := h
    exact ⟨what, place, he, n, List.mem_append_left _ hn, hc⟩
  | ok a =>
    obtain rfl : ns = [] := h
    exact hf a

theorem Blames.map {α β : Type} {ns : List Node} {r : Except Failure α} (h : Blames ns r)
    (f : α → β) : Blames ns (r >>= fun a => pure (f a)) := by
  cases r <;> exact h

theorem Job.StoppedBy.blames {ns : List Node} {script : Script} (h : j.StoppedBy ns script j.pen)
    (name extension : String) : Blames ns (j.file name extension script) := by
  unfold Job.StoppedBy at h
  unfold Job.file Job.text
  cases hrun : j.run script j.pen with
  | ok q => rw [hrun] at h; exact h.2
  | error e => rw [hrun] at h; exact h

def declFaults (cpp : Bool) (u : CompilationUnit) (d : TypeDecl) : List Node :=
  faults cpp (u.imports.map .importing) ++ faults cpp (writtenMember (!cpp) (.type d.head d.body))
    ++ if cpp then (Output.definitions d).flatMap fun f => faults cpp (Node.underMethod f.method)
      else []

theorem typeFiles_blames (h : Faithful j.source u) {ds ds' : List TypeDecl} {d : TypeDecl}
    (hd : u.types = ds ++ d :: ds') :
    Blames (declFaults j.profile.isCpp u d) (j.typeFiles u ds.length d) := by
  have hdecl := (declarationScript_stoppedBy h hd).blames d.head.name.text
    j.profile.language.extension
  refine hdecl.bind fun file => ?_
  cases hl : j.profile.language with
  | csharp =>
    have hcpp : j.profile.isCpp = false := by simp [Target.Profile.isCpp, hl]
    rw [hcpp]
    rfl
  | cpp =>
    have hcpp : j.profile.isCpp = true := by simp [Target.Profile.isCpp, hl]
    have hdefinitions := (definitionsScript_stoppedBy h hcpp (d := d) (by simp [hd])).blames
      d.head.name.text "cpp"
    rw [if_pos hcpp]
    exact hdefinitions.map fun definitions => [file, definitions]

theorem filesFrom_blames (h : Faithful j.source u) (ds ds' : List TypeDecl)
    (hd : u.types = ds ++ ds') :
    Blames (ds'.flatMap (declFaults j.profile.isCpp u)) (j.filesFrom u ds.length ds') := by
  induction ds' generalizing ds with
  | nil => rfl
  | cons d ds' ih =>
    rw [List.flatMap_cons]
    refine (typeFiles_blames h hd).bind fun first => ?_
    have hrest := ih (ds ++ [d]) (by simp [hd])
    rw [List.length_append, List.length_singleton] at hrest
    exact hrest.map fun rest => first ++ rest

/-- The faults of a type's files are those of the tree that the files show. -/
theorem mem_declFaults_iff (cpp : Bool) (u : CompilationUnit) (d : TypeDecl) (n : Node) :
    n ∈ declFaults cpp u d ↔
      (n ∈ u.imports.map .importing ∨ n ∈ (Node.decl d).descendants) ∧ n.isRejected cpp = true := by
  cases cpp with
  | false =>
    simp only [declFaults, Bool.not_false, writtenMember_true, Bool.false_eq_true, if_false,
      List.append_nil, List.mem_append, mem_faults, Node.descendants_decl]
    grind
  | true =>
    simp only [declFaults, Bool.not_true, if_true, List.mem_append, List.mem_flatMap, mem_faults,
      mem_decl_iff]
    grind

/-- Every import and every type of the tree is in some file. The file and its package are never
rejected. -/
theorem mem_filesFaults_iff (cpp : Bool) (hu : u.types ≠ []) (n : Node) :
    n ∈ u.types.flatMap (declFaults cpp u) ↔
      n ∈ (Node.unit u).descendants ∧ n.isRejected cpp = true := by
  obtain ⟨d, hd⟩ := List.exists_mem_of_ne_nil _ hu
  simp only [List.mem_flatMap, mem_declFaults_iff, Node.descendants, List.mem_append, List.mem_cons,
    List.mem_map]
  constructor
  · rintro ⟨d, hd, ⟨i, hi, rfl⟩ | hn, hr⟩
    · exact ⟨.inl (.inr ⟨i, hi, rfl⟩), hr⟩
    · exact ⟨.inr ⟨d, hd, hn⟩, hr⟩
  · rintro ⟨((rfl | ⟨p, -, rfl⟩) | hi) | ⟨d, hd, hn⟩, hr⟩
    · cases hr
    · cases hr
    · exact ⟨d, hd, .inl hi, hr⟩
    · exact ⟨d, hd, .inr hn, hr⟩

/-- The files of a faithful tree with a type in it are written exactly if the target rejects nothing
in the tree; otherwise the failure is a rejection inside a node that the target rejects. -/
theorem files_rejected_iff (j : Job) (u : CompilationUnit) (hu : Faithful j.source u)
    (ht : u.types ≠ []) :
    ((∃ f, j.files u = .error f) ↔
      ∃ n ∈ (Node.unit u).descendants, n.isRejected j.profile.isCpp = true) ∧
    ∀ f, j.files u = .error f → ∃ what place, f = .rejected what place ∧
      ∃ n ∈ (Node.unit u).descendants, n.isRejected j.profile.isCpp = true ∧
        n.span.contains place.offset = true := by
  have hblames : Blames (u.types.flatMap (declFaults j.profile.isCpp u)) (j.files u) :=
    filesFrom_blames hu [] u.types rfl
  have hmem := mem_filesFaults_iff j.profile.isCpp ht
  cases hfiles : j.files u with
  | ok files =>
    rw [hfiles] at hblames
    have hnone : u.types.flatMap (declFaults j.profile.isCpp u) = [] := hblames
    refine ⟨⟨by simp, fun ⟨n, hn, hr⟩ => ?_⟩, by simp⟩
    have := (hmem n).2 ⟨hn, hr⟩
    rw [hnone] at this
    cases this
  | error f =>
    rw [hfiles] at hblames
    obtain ⟨what, place, hf, n, hn, hc⟩ := hblames
    obtain ⟨hn, hr⟩ := (hmem n).1 hn
    refine ⟨⟨fun _ => ⟨n, hn, hr⟩, fun _ => ⟨f, rfl⟩⟩, fun f' hf' => ?_⟩
    obtain rfl := Except.error.inj hf'
    exact ⟨what, place, hf, n, hn, hr, hc⟩

theorem files_rejected_iff_sample :
    (∃ f, (Job.mk sampleSource .cpp).files sampleUnit = .error f) ∧
      ¬ ∃ f, (Job.mk sampleSource .csharp).files sampleUnit = .error f := by
  have hcpp := files_rejected_iff ⟨sampleSource, .cpp⟩ sampleUnit sample_faithful (by simp [sampleUnit])
  have hcsharp :=
    files_rejected_iff ⟨sampleSource, .csharp⟩ sampleUnit sample_faithful (by simp [sampleUnit])
  refine ⟨hcpp.1.2 ⟨_, List.mem_of_getElem? (i := 8) rfl, rfl⟩, fun h => ?_⟩
  obtain ⟨n, hn, hr⟩ := hcsharp.1.1 h
  have hnone : faults false (Node.unit sampleUnit).descendants = [] := rfl
  exact List.ne_nil_of_mem (mem_faults.2 ⟨hn, hr⟩) hnone

/-! ## Nodes by themselves -/

/-- A statement by itself is written as part of a method. -/
theorem exists_nodeScript (p : Target.Profile) (u : CompilationUnit) (n : Node) :
    ∃ s : Setting, Output.nodeScript p u n = .moveToLead n.span.start :: .copySpace
      :: Script.ofNode s n ++ [Stroke.copyTrail] ∧ ∀ t, n = .stmt t → s.inBody = true :=
  ⟨_, rfl, by rintro t rfl; rfl⟩

/-- A node is written from the space and comments in front of it. -/
theorem nodeText_sound (h : Faithful j.source u) {n : Node} (hn : n ∈ (Node.unit u).descendants) :
    (∃ t, j.nodeText u n = .ok t) ∨
      ∃ what place, j.nodeText u n = .error (.rejected what place) := by
  obtain ⟨hb, hfix⟩ := h.start hn
  have hlead := Source.inGap_leadStart hb
  obtain ⟨q, hq, hpos, -⟩ := Job.exists_copySpace false (j := j)
    (p := j.pen.moveTo (j.source.leadStart n.span.start)) (Source.boundary_of_inGap_left hlead)
  have hstart : q.position = n.span.start := by
    rw [hpos, Pen.moveTo_position, ← Source.skipSpace_eq_of_inGap hlead, hfix]
  obtain ⟨s, hscript, hs⟩ := exists_nodeScript j.profile u n
  have hrun : j.run (Output.nodeScript j.profile u n) j.pen
      = j.run (Script.ofNode s n ++ [Stroke.copyTrail]) q := by
    simp only [hscript, List.cons_append, Job.run_cons, Job.stroke, Except.bind, hq]
  have hsettles : j.Settles false (Script.ofNode s n ++ [Stroke.copyTrail]) q := by
    refine (node_settles h hn s (fun _ => hs) hstart).append fun q' _ hb' => ?_
    exact Tracks.copyTrail.settles (Outline.reads_nil.2 ⟨hb', rfl⟩) (.refl hb')
  have hend := hsettles.2
  rw [← hrun] at hend
  unfold Job.nodeText Job.text
  cases hresult : j.run (Output.nodeScript j.profile u n) j.pen with
  | ok q' => exact .inl ⟨_, rfl⟩
  | error e =>
    rw [hresult] at hend
    obtain ⟨P, hP⟩ := hend
    obtain ⟨what, place, hf, -⟩ := hP.rejected
    exact .inr ⟨what, place, congrArg _ hf⟩

/-- Writing a faithful tree, or any node of it, gives a text or a rejection: no promise about the
cursor is broken, no block is met outside a method and the text is never cut where no character
starts. -/
theorem faithful_output_sound (j : Job) (u : CompilationUnit) (hu : Faithful j.source u) :
    (∀ n ∈ (Node.unit u).descendants, (∃ t, j.nodeText u n = .ok t) ∨
      ∃ what place, j.nodeText u n = .error (.rejected what place)) ∧
    ((∃ fs, j.files u = .ok fs) ∨ ∃ what place, j.files u = .error (.rejected what place)) := by
  refine ⟨fun n hn => nodeText_sound hu hn, ?_⟩
  have hblames : Blames (u.types.flatMap (declFaults j.profile.isCpp u)) (j.files u) :=
    filesFrom_blames hu [] u.types rfl
  cases hfiles : j.files u with
  | ok files => exact .inl ⟨files, rfl⟩
  | error f =>
    rw [hfiles] at hblames
    obtain ⟨what, place, rfl, -⟩ := hblames
    exact .inr ⟨what, place, rfl⟩

theorem faithful_output_sound_sample :
    ((∃ t, (Job.mk sampleSource .cpp).nodeText sampleUnit (.method sampleMethod) = .ok t) ∨
      ∃ what place, (Job.mk sampleSource .cpp).nodeText sampleUnit (.method sampleMethod)
        = .error (.rejected what place)) ∧
    ((∃ fs, (Job.mk sampleSource .cpp).files sampleUnit = .ok fs) ∨
      ∃ what place, (Job.mk sampleSource .cpp).files sampleUnit = .error (.rejected what place)) := by
  obtain ⟨hnode, hfiles⟩ := faithful_output_sound ⟨sampleSource, .cpp⟩ sampleUnit sample_faithful
  exact ⟨hnode _ sampleMethod_mem, hfiles⟩

end Transcribe
