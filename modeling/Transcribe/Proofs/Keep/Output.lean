/-
  Transcribe.Proofs.Keep.Output — the comments of every file are those of the source, in order.

  The declaration of a type and the definitions of its methods are written on from package and
  imports, or from nothing, each from what belongs to it in the source. The pen goes on through the
  source in either file, so no comment is met twice.
  - `Kept.declaration`, `Kept.definitions`: what the two files of a type keep.
-/

import Transcribe.Proofs.Keep.Unit
import Transcribe.Output.Basic

namespace Transcribe

open Text (Span Source Scan Ruler byteLength isBreak)
open Text.Scan (Plain texts)
open Grammar (Lexeme calm InOrder)
open Java (Package Import TypeHead TypeDecl Member Method CompilationUnit Node Rule Good Sound)
open Output (Definition definitions definitionsOf definitionsIn)

/-! ## Sources -/

structure Java.SoundUnit (s : Source) (ls : List (Lexeme Rule)) (u : CompilationUnit) : Prop where
  inOrder : InOrder u.span.start ((Node.unit u).children.map Node.span) u.span.stop
  sound : ∀ n ∈ (Node.unit u).children, Sound s ls n

theorem prologueEnd?_eq_none {u : CompilationUnit} :
    u.prologueEnd? = none ↔ u.package? = none ∧ u.imports = [] := by
  unfold CompilationUnit.prologueEnd?
  split
  · rename_i i hi
    have hne : u.imports ≠ [] := List.ne_nil_of_mem (List.mem_of_getLast? hi)
    simp [hne]
  · rename_i hnone
    simp [List.getLast?_eq_none_iff.1 hnone]

namespace Java.SoundUnit

variable {s : Source} {ls : List (Lexeme Rule)} {u : CompilationUnit}

theorem package (h : SoundUnit s ls u) {p : Package} (hp : p ∈ u.package?) :
    Good s ls (.package p) :=
  (h.sound _ (by simp [Node.children, Option.mem_def.1 hp])).self

theorem importing (h : SoundUnit s ls u) {i : Import} (hi : i ∈ u.imports) :
    Good s ls (.importing i) := (h.sound _ (by simp [Node.children, hi])).self

theorem decl (h : SoundUnit s ls u) {d : TypeDecl} (hd : d ∈ u.types) : Sound s ls (.decl d) :=
  h.sound _ (by simp [Node.children, hd])

/-- Package and imports end with a token in front of every type. -/
theorem prologueEnd (h : SoundUnit s ls u) (hclear : Clear s ls) {x : Nat}
    (hx : u.prologueEnd? = some x) {d : TypeDecl} (hd : d ∈ u.types) :
    s.OnCode x ∧ s.skipSpaceBack x = x ∧ x ≤ d.head.span.start := by
  have hlast : ∃ n ∈ u.package?.toList.map Node.package ++ u.imports.map Node.importing,
      n.span.stop = x ∧ n.rule?.isSome = true := by
    unfold CompilationUnit.prologueEnd? at hx
    split at hx
    · rename_i i hi
      exact ⟨.importing i, by simp [List.mem_of_getLast? hi], Option.some.inj hx, rfl⟩
    · obtain ⟨p, hp, hstop⟩ := Option.map_eq_some_iff.1 hx
      exact ⟨.package p, by simp [hp], hstop, rfl⟩
  obtain ⟨n, hn, rfl, hrule⟩ := hlast
  obtain ⟨r, hr⟩ := Option.isSome_iff_exists.1 hrule
  have hgood := (h.sound n (List.mem_append_left _ hn)).self
  have hpairs := h.inOrder.pairwise
  rw [Node.children, List.map_append] at hpairs
  exact ⟨(hgood.onCode hclear hr).2, hgood.solid.stop, (List.pairwise_append.1 hpairs).2.2 _
    (List.mem_map_of_mem hn) _ (List.mem_map_of_mem (List.mem_map_of_mem hd))⟩

end Java.SoundUnit

/-! ## Definitions -/

/-- A method in its place, behind the names of the types around it. -/
structure Output.Definition.Placed (s : Source) (ls : List (Lexeme Rule)) (f : Definition) : Prop where
  sound : Sound s ls (.method f.method)
  qualifier : calm f.qualifier.toList = true ∧ Text.isBare f.qualifier.toList = true

section Placed

variable {s : Source} {ls : List (Lexeme Rule)}

theorem calm_qualified {q : String} {h : TypeHead}
    (hq : calm q.toList = true ∧ Text.isBare q.toList = true)
    (hname : Good s ls (Node.ofName h.name)) : calm (q ++ "::" ++ h.name.text).toList = true ∧
      Text.isBare (q ++ "::" ++ h.name.text).toList = true := by
  simp only [String.toList_append]
  exact ⟨Grammar.calm_append (Grammar.calm_append hq.1 rfl) (calm_of_identifier hname.name).1,
    Text.isBare_append (Text.isBare_append hq.2 rfl) hname.name.isBare⟩

theorem inOrder_body {d : TypeDecl} (h : Sound s ls (.decl d)) :
    InOrder d.head.span.start (d.body.map fun m => (Node.ofMember m).span) d.head.span.stop ∧
      Good s ls (Node.ofName d.head.name) ∧ ∀ m ∈ d.body, Sound s ls (Node.ofMember m) := by
  have hchildren : (Node.decl d).children = Node.childrenOfHead d.head ++ d.body.map Node.ofMember := rfl
  refine ⟨Java.InOrder.sublist h.self.inOrder ?_, ?_, fun m hm => ?_⟩
  · rw [hchildren, List.map_append, List.map_map]
    exact List.sublist_append_right _ _
  · exact (h.child (c := Node.ofName d.head.name)
      (List.mem_append_left _ (by simp [Node.childrenOfHead]))).self
  · exact h.child (List.mem_append_right _ (List.mem_map_of_mem hm))

mutual

/-- The definitions of a member lie inside it one behind the other. -/
theorem definitionsOf_placed (owner : TypeHead) (q : String)
    (hq : calm q.toList = true ∧ Text.isBare q.toList = true) (m : Member)
    (h : Sound s ls (Node.ofMember m)) :
    InOrder (Node.ofMember m).span.start ((definitionsOf owner q m).map (·.method.span))
        (Node.ofMember m).span.stop ∧
      ∀ f ∈ definitionsOf owner q m, f.Placed s ls := by
  have hlt := Nat.le_of_lt h.self.solid.lt
  cases m with
  | field f => exact ⟨hlt, by simp [definitionsOf]⟩
  | method m =>
    rw [definitionsOf]
    split
    · refine ⟨⟨Nat.le_refl _, hlt, Nat.le_refl _⟩, fun f hf => ?_⟩
      obtain rfl := List.mem_singleton.1 hf
      exact ⟨h, hq⟩
    · exact ⟨hlt, by simp⟩
  | type k body =>
    rw [definitionsOf]
    obtain ⟨hin, hname, hbody⟩ := inOrder_body (d := ⟨k, body⟩) h
    exact definitionsIn_placed k _ (calm_qualified hq hname) body hin hbody

theorem definitionsIn_placed (owner : TypeHead) (q : String)
    (hq : calm q.toList = true ∧ Text.isBare q.toList = true)
    (ms : List Member) {lo hi : Nat} (hin : InOrder lo (ms.map fun m => (Node.ofMember m).span) hi)
    (h : ∀ m ∈ ms, Sound s ls (Node.ofMember m)) :
    InOrder lo ((definitionsIn owner q ms).map (·.method.span)) hi ∧
      ∀ f ∈ definitionsIn owner q ms, f.Placed s ls := by
  cases ms with
  | nil => exact ⟨hin, by simp [definitionsIn]⟩
  | cons m ms =>
    obtain ⟨hm, hms⟩ := List.forall_mem_cons.1 h
    obtain ⟨hfirst, hplaced⟩ := definitionsOf_placed owner q hq m hm
    obtain ⟨hrest, hplaced'⟩ := definitionsIn_placed owner q hq ms hin.2.2 hms
    rw [definitionsIn, List.map_append]
    refine ⟨.of_le hin.1 (hfirst.append hrest), fun f hf => ?_⟩
    rcases List.mem_append.1 hf with hf | hf
    · exact hplaced f hf
    · exact hplaced' f hf

end

theorem definitions_placed {d : TypeDecl} (h : Sound s ls (.decl d)) :
    InOrder d.head.span.start ((definitions d).map (·.method.span)) d.head.span.stop ∧
      ∀ f ∈ definitions d, f.Placed s ls := by
  obtain ⟨hin, hname, hbody⟩ := inOrder_body h
  exact definitionsIn_placed d.head _ ⟨(calm_of_identifier hname.name).1, hname.name.isBare⟩ d.body
    hin hbody

end Placed

/-! ## Pens at the start -/

/-- A pen that has kept nothing yet. -/
theorem Kept.start {j : Job} (strict : Bool) {p : Pen} (hon : j.source.OnCode p.position)
    (hruler : p.sink.ruler = Ruler.standard j.profile.preferredIndent)
    (hcolumn : p.sink.column = p.sink.ruler.through 0 p.sink.text.toList)
    (hdedent : p.dedent ≠ 0 → j.profile.isCpp = true) (htrailing : p.trailing = false) :
    Kept j strict p.sink.text.toList p.position [] [] .code p := by
  refine ⟨hon, ⟨[], (List.append_nil _).symm, ⟨Nat.le_refl _, by simp, [], List.nil_sublist _,
    fun _ => ?_, .nil⟩, rfl, rfl⟩, hruler, hcolumn, hdedent, fun _ => htrailing⟩
  rw [Source.spared_nil, hon.within_self]

theorem kept_pen (j : Job) : Kept j false [] 0 [] [] .code j.pen :=
  .start false (p := j.pen) Source.onCode_zero rfl rfl (fun h => absurd rfl h) rfl

/-! ## The end of a file -/

def Stroke.isPrint : Stroke → Bool
  | .write _ | .newline | .closeLine _ => true
  | _ => false

/-- Such a stroke leaves the cursor where it is, and what it writes does not depend on how the last
node was left. -/
theorem Job.stroke_print {j : Job} {st : Stroke} (hst : st.isPrint = true) {p q : Pen}
    (trailing : Bool) (h : j.stroke p st = .ok q) :
    q.position = p.position ∧ j.stroke { p with trailing } st = .ok { q with trailing } := by
  have hrepeat : ∀ (n : Nat) (p : Pen), (Nat.repeat j.newline n p).position = p.position ∧
      Nat.repeat j.newline n { p with trailing } = { Nat.repeat j.newline n p with trailing } := by
    intro n p
    induction n with
    | zero => exact ⟨rfl, rfl⟩
    | succ n ih => exact ⟨ih.1, congrArg j.newline ih.2⟩
  cases st with
  | write t | newline =>
    obtain rfl := Except.ok.inj h
    exact ⟨rfl, rfl⟩
  | closeLine n =>
    obtain rfl := Except.ok.inj h
    rw [Job.stroke]
    split
    · exact ⟨rfl, rfl⟩
    · exact ⟨(hrepeat n p).1, congrArg Except.ok (hrepeat n p).2⟩
  | _ => cases hst

theorem Job.run_prints {j : Job} {r : Script} (hr : r.all Stroke.isPrint = true) {p q : Pen}
    (trailing : Bool) (h : j.run r p = .ok q) :
    q.position = p.position ∧ j.run r { p with trailing } = .ok { q with trailing } := by
  induction r generalizing p with
  | nil =>
    obtain rfl := Except.ok.inj h
    exact ⟨rfl, rfl⟩
  | cons st r ih =>
    obtain ⟨hst, hr⟩ := Bool.and_eq_true_iff.1 hr
    obtain ⟨mid, hmid, hrun⟩ := Job.run_cons_eq_ok.1 h
    obtain ⟨hpos, hfirst⟩ := Job.stroke_print hst trailing hmid
    obtain ⟨hpos', hrest⟩ := ih hr hrun
    exact ⟨hpos'.trans hpos, Job.run_cons_eq_ok.2 ⟨_, hfirst, hrest⟩⟩

theorem isPrint_ofEpilogue (s : Setting) (u : CompilationUnit) :
    (Script.ofEpilogue s u).all Stroke.isPrint = true := by
  unfold Script.ofEpilogue
  split <;> rfl

namespace Keeps

variable {j : Job} {strict : Bool}

theorem closing : Keeps j strict .code .code [] [.write "\x7d", .newline] :=
  (write (Scan.plain_of_calm rfl)).cons (newline.mono rfl rfl)

theorem ofEpilogue (s : Setting) (u : CompilationUnit) :
    Keeps j strict .line .code [] (Script.ofEpilogue s u) :=
  (closeLine (by decide)).cons (closing.optional _)

end Keeps

namespace Kept

variable {j : Job} {strict : Bool} {b bs : List Char} {a : Nat} {lost : List Span} {p q : Pen}
  {ls : List (Lexeme Rule)} {u : CompilationUnit} {d : TypeDecl} {index : Nat}

/-- The end of a file, however the type in it was left. -/
theorem epilogue {s : Setting} (h : Kept j strict b a lost bs .trail p)
    (hrun : j.run (Script.ofEpilogue s u) p = .ok q) :
    Kept j strict b a lost (bs ++ (Script.ofEpilogue s u).brackets) .code
      { q with trailing := false } := by
  have hline : Kept j strict b a lost bs .line { p with trailing := false } :=
    ⟨h.onCode, h.text, h.ruler, h.column, h.dedent, fun _ => rfl⟩
  have hq := Keeps.ofEpilogue s u _ rfl hline
    (Job.run_prints (isPrint_ofEpilogue s u) false hrun).2
  rwa [List.append_nil] at hq

/-! ## Declarations -/

/-- The parts of a file with a declaration. -/
theorem declaration_ok (h : j.run (Output.declarationScript j.profile u index d) j.pen = .ok q) :
    ∃ p p', j.run (Script.ofPrologue (.ofProfile j.profile) u ++ Output.leadScript u index d
        ++ [Stroke.copySpace]) j.pen = .ok p ∧
      j.run (Script.ofDecl (.ofProfile j.profile) d) p = .ok p' ∧
      j.run (.copyTrail :: Script.ofEpilogue (.ofProfile j.profile) u) p' = .ok q := by
  simp only [Output.declarationScript] at h
  obtain ⟨p', h, hrest⟩ := Job.run_append_eq_ok.1 h
  obtain ⟨mid, hmid, h⟩ := Job.run_append_eq_ok.1 h
  obtain ⟨p, hspace, hdecl⟩ := Job.run_cons_eq_ok.1 h
  exact ⟨p, p', Job.run_append_eq_ok.2 ⟨mid, hmid, Job.run_singleton.trans hspace⟩, hdecl, hrest⟩

/-- Behind package and imports a type can be reached. -/
theorem prologue {s : Setting} (hj : Orderly j ls false) (hu : Java.SoundUnit j.source ls u)
    (hd : d ∈ u.types) (hrun : j.run (Script.ofPrologue s u) j.pen = .ok p) :
    Kept j false [] 0 [] (Script.ofPrologue s u).brackets .ready p ∧
      j.source.Reaches p.position d.head.span.start := by
  have hkept := Keeps.ofPrologue hj (fun _ => hu.package) (fun _ => hu.importing) _ rfl (kept_pen j) hrun
  refine ⟨hkept, ?_⟩
  cases hx : u.prologueEnd? with
  | some x =>
    obtain ⟨hon, hback, hle⟩ := hu.prologueEnd hj.clear hx hd
    obtain ⟨o, hends, honward⟩ := Ends.prologue (j := j) (s := s) hx
    obtain rfl : p.position = o := hends hrun (hkept.trailing (by simp))
    exact .inr ⟨x, hon, hback, hle, honward⟩
  | none =>
    obtain ⟨hpackage, himports⟩ := prologueEnd?_eq_none.1 hx
    have hempty : Script.ofPrologue s u = [] := by
      simp [Script.ofPrologue, Script.lineOpen, hpackage, himports]
    rw [hempty] at hrun
    obtain rfl := Except.ok.inj hrun
    exact .inl rfl

theorem brackets_leadScript (u : CompilationUnit) (index : Nat) (d : TypeDecl) :
    (Output.leadScript u index d).brackets = [] := by
  unfold Output.leadScript
  split <;> rfl

/-- The way to a type. -/
theorem toDecl {s : Setting} (hj : Orderly j ls false) (hu : Java.SoundUnit j.source ls u)
    (hd : d ∈ u.types)
    (hrun : j.run (Script.ofPrologue s u ++ Output.leadScript u index d) j.pen = .ok p) :
    Kept j false [] 0 [] (Script.ofPrologue s u).brackets .code p := by
  obtain ⟨mid, hmid, hlead⟩ := Job.run_append_eq_ok.1 hrun
  obtain ⟨hkept, hreach⟩ := prologue hj hu hd hmid
  have hgood := (hu.decl hd).self
  unfold Output.leadScript at hlead
  split at hlead
  · rename_i hfirst
    simp only [Bool.and_eq_true, Option.isNone_iff_eq_none, List.isEmpty_iff] at hfirst
    have hempty : Script.ofPrologue s u = [] := by
      simp [Script.ofPrologue, Script.lineOpen, hfirst.1.2, hfirst.2]
    rw [hempty] at hmid ⊢
    obtain rfl := Except.ok.inj hmid
    obtain rfl := Except.ok.inj hlead
    exact kept_pen j
  · obtain rfl := Except.ok.inj hlead
    exact hkept.toLead hj.clear.isSealed (hgood.onCode hj.clear rfl).1 hgood.solid.start hgood.start_lt
      hreach

/-- A type is written from a pen that is ready for it. -/
theorem toNode {s : Setting} (hj : Orderly j ls false) (hu : Java.SoundUnit j.source ls u)
    (hd : d ∈ u.types)
    (hrun : j.run (Script.ofPrologue s u ++ Output.leadScript u index d ++ [Stroke.copySpace]) j.pen
      = .ok p) : Kept j false [] 0 [] (Script.ofPrologue s u).brackets .ready p := by
  obtain ⟨mid, hmid, hspace⟩ := Job.run_append_eq_ok.1 hrun
  exact (Keeps.copySpace hj.clear.isSealed).still rfl ((toDecl hj hu hd hmid).mono rfl) hspace

/-- The file with the declaration of a type. -/
theorem declaration (hj : Orderly j ls false) (hu : Java.SoundUnit j.source ls u) (hd : d ∈ u.types)
    (hrun : j.run (Output.declarationScript j.profile u index d) j.pen = .ok q) :
    Kept j false [] 0 [] (Output.declarationScript j.profile u index d).brackets .code
      { q with trailing := false } := by
  have hs := hj.clear.isSealed
  obtain ⟨p, p', hnode, hdecl, hrest⟩ := declaration_ok hrun
  have hkept := Keeps.ofDecl (s := .ofProfile j.profile) hj rfl rfl (hu.decl hd) _ rfl
    (toNode hj hu hd hnode) hdecl
  have htrail : Kept j false [] 0 [] ((Script.ofPrologue (.ofProfile j.profile) u).brackets
      ++ (Script.ofDecl (.ofProfile j.profile) d).brackets) .trail p' := by
    refine (hkept.mono ?_).forget rfl
    split <;> rfl
  obtain ⟨q', htrailing, hepilogue⟩ := Job.run_cons_eq_ok.1 hrest
  have hend := ((Keeps.copyTrail hs).still rfl htrail (Job.run_singleton.trans htrailing)).epilogue
    hepilogue
  simpa [Output.declarationScript, brackets_leadScript, Stroke.brackets] using hend

/-! ## Definitions -/

/-- One definition, behind which the text goes on at the end of its line. -/
theorem definition (hj : Orderly j ls false) (hcpp : j.profile.isCpp = true) {f : Definition}
    (hf : f.Placed j.source ls) (h : Kept j false [] 0 [] bs .code p)
    (hreach : j.source.Reaches p.position f.method.span.start)
    (hrun : j.run (Output.definitionScript j.profile f) p = .ok q) :
    Kept j false [] 0 [] (bs ++ (Output.definitionScript j.profile f).brackets) .code q ∧
      q.position = j.source.skipSpace true f.method.span.stop := by
  have hs := hj.clear.isSealed
  have hgood := hf.sound.self
  let s : Setting := { Setting.ofProfile j.profile with
    part := .source, qualifier := f.qualifier, enclosing? := some f.owner }
  have hmethod : Keeps j false .ready .code [] (Script.ofMethod s f.method) :=
    (Keeps.ofMethod hj rfl hf.qualifier.1 hf.sound).forget rfl
  have hlead : Keeps j false .code .code []
      (.skipBlankLines :: .dedentBy f.method.span.start :: .copySpace :: Script.ofMethod s f.method) :=
    Keeps.skipBlankLines.cons ((Keeps.dedentBy hcpp).cons (Keeps.space hs hmethod))
  simp only [Output.definitionScript, List.cons_append, List.nil_append] at hrun
  obtain ⟨p₁, hnewline, hlines⟩ := Job.run_cons_eq_ok.1 hrun
  obtain ⟨p₂, hmove, htext⟩ := Job.run_cons_eq_ok.1 hlines
  rw [← List.cons_append, ← List.cons_append, ← List.cons_append] at htext
  obtain ⟨p₃, hbody, hlast⟩ := Job.run_append_eq_ok.1 htext
  obtain ⟨p₄, htrail, hprint⟩ := Job.run_cons_eq_ok.1 hlast
  obtain rfl := Except.ok.inj hnewline
  obtain rfl := Except.ok.inj hmove
  have hline : Kept j false [] 0 [] bs .code (j.newline p) :=
    Keeps.newline.still rfl (h.mono rfl) rfl
  have hkept := hlead _ rfl ((hline.mono (k := .ready) rfl).toLead hs (hgood.onCode hj.clear rfl).1
    hgood.solid.start hgood.start_lt hreach) hbody
  have hstop : p₃.position = f.method.span.stop := by
    refine Ends.append (r := [.skipBlankLines, .dedentBy f.method.span.start, .copySpace]) ?_ hbody
      (hkept.trailing (by simp))
    exact ends_framed
  rw [Job.stroke, if_neg (by simp [hkept.trailing])] at htrail
  have hend : Keeps j false .line .code [] [.undent, .newline] := Keeps.undent.cons Keeps.newline
  have hcopied := (Keeps.copyLine hs).still rfl (hkept.mono rfl) (Job.run_singleton.trans htrail)
  have hkept' := hend.still rfl hcopied hprint
  refine ⟨by simpa [Output.definitionScript, Stroke.brackets] using hkept', ?_⟩
  obtain rfl := Except.ok.inj hprint
  have hpos := Job.copySpace_position htrail
  rw [hstop] at hpos
  exact hpos

/-- Definitions one behind the other. -/
theorem definitionScripts (hj : Orderly j ls false) (hcpp : j.profile.isCpp = true)
    {fs : List Definition} (hfs : ∀ f ∈ fs, f.Placed j.source ls) {lo hi : Nat}
    (hin : InOrder lo (fs.map (·.method.span)) hi) (h : Kept j false [] 0 [] bs .code p)
    (hreach : j.source.Reaches p.position lo)
    (hrun : j.run (fs.flatMap (Output.definitionScript j.profile)) p = .ok q) :
    Kept j false [] 0 [] (bs ++ Script.brackets (fs.flatMap (Output.definitionScript j.profile)))
      .code q := by
  induction fs generalizing p lo bs with
  | nil =>
    obtain rfl := Except.ok.inj hrun
    simpa using h
  | cons f fs ih =>
    obtain ⟨hf, hfs⟩ := List.forall_mem_cons.1 hfs
    obtain ⟨mid, hmid, hrun⟩ := Job.run_append_eq_ok.1 hrun
    obtain ⟨hkept, hpos⟩ := h.definition hj hcpp hf (hreach.mono hin.1) hmid
    have hgood := hf.sound.self
    rw [List.flatMap_cons, Script.brackets_append, ← List.append_assoc]
    refine ih hfs hin.2.2 hkept ?_ hrun
    exact .inr ⟨f.method.span.stop, (hgood.onCode hj.clear rfl).2, hgood.solid.stop, Nat.le_refl _,
      .inl hpos⟩

/-- The file with the definitions of a type's methods. -/
theorem definitions (hj : Orderly j ls false) (hcpp : j.profile.isCpp = true)
    (hu : Java.SoundUnit j.source ls u) (hd : d ∈ u.types)
    (hrun : j.run (Output.definitionsScript j.profile u d) j.pen = .ok q) :
    Kept j false [] 0 [] (Output.definitionsScript j.profile u d).brackets .code q := by
  obtain ⟨hin, hplaced⟩ := definitions_placed (hu.decl hd)
  obtain ⟨-, hname, -⟩ := inOrder_body (hu.decl hd)
  have hinclude : Plain ("#include \x22" ++ d.head.name.text ++ "." ++ j.profile.language.extension
      ++ "\x22").toList := by
    obtain hlanguage : j.profile.language = .cpp := by simpa [Target.Profile.isCpp] using hcpp
    rw [hlanguage]
    simpa [String.toList_append, Target.Language.extension] using plain_include hname.name.identifier.2
  have hline : Keeps j false .code .code [] [.newline] := Keeps.newline.mono rfl rfl
  have hopen : Keeps j false .code .code [] (.write ("#include \x22" ++ d.head.name.text ++ "."
      ++ j.profile.language.extension ++ "\x22") :: .newline
      :: u.package?.toList.flatMap fun k => .newline :: Script.openNamespace k) := by
    refine (Keeps.write hinclude).cons (hline.cons ((Keeps.flatMap (m := fun _ => []) ?_).forget rfl))
    exact fun k hk => hline.cons (Keeps.openNamespace (hu.package (Option.mem_toList.1 hk)).packageName)
  have hclose : Keeps j false .code .code []
      (if u.package?.isSome then [.newline, .write "\x7d", .newline] else []) :=
    (hline.cons Keeps.closing).optional _
  unfold Output.definitionsScript at hrun ⊢
  obtain ⟨q', hrun, hlast⟩ := Job.run_append_eq_ok.1 hrun
  obtain ⟨p, hfirst, hscripts⟩ := Job.run_append_eq_ok.1 hrun
  have hkept := hopen _ rfl (kept_pen j) hfirst
  have hzero : p.position = 0 := (Job.run_prints (by cases u.package? <;> rfl) false hfirst).1
  rw [Script.brackets_append, Script.brackets_append]
  exact hclose _ rfl (hkept.definitionScripts hj hcpp hplaced hin (.inl hzero) hscripts) hlast

end Kept

end Transcribe
