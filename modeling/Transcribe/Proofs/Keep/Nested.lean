/-
  Transcribe.Proofs.Keep.Nested — the brackets of what a parsed source becomes are nested.

  Space and comments bring no brackets of code into a file, so the brackets of code in it are those
  that its script writes. The script of a file is closed: what it puts in front of a type or of
  definitions opens no more than the bracket of a namespace, which its end closes. The tables of
  the profile must spell no bracket (`isBare`); names and literals of the source bring none.
  - `files_nested`: the brackets of code in every file are nested.
-/

import Transcribe.Proofs.Keep.Closed
import Transcribe.Proofs.Keep.Files

namespace Transcribe

open Text (Span Source Scan Nested isBare)
open Grammar (Lexeme Derivation)
open Java (TypeDecl CompilationUnit Node Rule Parsed Package Import)
open Output (File Definition)

/-! ## Words of the target -/

def Target.Table.isBare (t : Target.Table) : Bool := t.entries.all fun e => Text.isBare e.2.toList

theorem isBare_of_get? {t : Target.Table} (h : t.isBare = true) {k v : String}
    (hv : t.get? k = some v) : isBare v.toList = true := by
  obtain ⟨l₁, l₂, hentries, -⟩ := List.lookup_eq_some_iff.1 hv
  exact List.all_eq_true.1 h (k, v) (by simp [hentries])

def Target.Profile.isBare (p : Target.Profile) : Bool :=
  p.primitiveTypes.isBare && p.typeRenames.isBare

theorem Setting.Bare.ofProfile {p : Target.Profile} (h : p.isBare = true) :
    (Setting.ofProfile p).Bare := by
  obtain ⟨hprimitives, hrenames⟩ := Bool.and_eq_true_iff.1 h
  refine ⟨fun k => ?_, fun n t ht => ?_, rfl⟩
  · show isBare (p.primitive (Java.word k)).toList = true
    unfold Target.Profile.primitive
    cases hk : p.primitiveTypes.get? (Java.word k) with
    | none => cases k <;> rfl
    | some v => exact isBare_of_get? hprimitives hk
  · obtain ⟨k, hk⟩ := get?_of_renamed? ht
    exact isBare_of_get? hrenames hk

/-! ## Scripts of files -/

namespace Script.Closed

variable {p : Target.Profile} {s : Source} {ls : List (Lexeme Rule)} {u : CompilationUnit}
  {d : TypeDecl}

theorem declarationScript (hp : (Setting.ofProfile p).Bare) (hclear : Java.Clear s ls)
    (hu : Java.SoundUnit s ls u) (hd : d ∈ u.types) (index : Nat) :
    Closed (Output.declarationScript p u index d) := by
  have hlead : Closed (Output.leadScript u index d) := still (Kept.brackets_leadScript u index d)
  have hdecl : Closed (Script.ofDecl (.ofProfile p) d) :=
    closed_ofNode (n := .decl d) ((hu.decl hd).worded hclear) nofun hp
  have hbody : Closed (Output.leadScript u index d ++ .copySpace :: Script.ofDecl (.ofProfile p) d
      ++ [Stroke.copyTrail]) := (hlead.append (cons rfl hdecl)).append (still rfl)
  have hfile := hbody.file (s := .ofProfile p) (fun k hk => (hu.package hk).worded hclear)
    (fun i hi => (hu.importing hi).worded hclear)
  simpa [Output.declarationScript] using hfile

theorem definitionScript (hp : (Setting.ofProfile p).Bare) (hclear : Java.Clear s ls)
    {f : Definition} (hf : f.Placed s ls) : Closed (Output.definitionScript p f) := by
  have hmethod : Closed (Script.ofMethod { Setting.ofProfile p with
      part := .source, qualifier := f.qualifier, enclosing? := some f.owner } f.method) :=
    closed_ofNode (n := .method f.method) (hf.sound.worded hclear) nofun
      ⟨hp.primitive, hp.renamed, hf.qualifier.2⟩
  exact (append (still rfl) hmethod).append (still rfl)

theorem definitionsScript (hp : (Setting.ofProfile p).Bare) (hclear : Java.Clear s ls)
    (hu : Java.SoundUnit s ls u) (hd : d ∈ u.types) : Closed (Output.definitionsScript p u d) := by
  obtain ⟨-, hplaced⟩ := definitions_placed (hu.decl hd)
  obtain ⟨-, hname, -⟩ := inOrder_body (hu.decl hd)
  have hscripts : Closed ((Output.definitions d).flatMap (Output.definitionScript p)) :=
    flatMap fun f hf => definitionScript hp hclear (hplaced f hf)
  have hinclude : isBare ("#include \x22" ++ d.head.name.text ++ "." ++ p.language.extension
      ++ "\x22").toList = true := by
    simp only [String.toList_append]
    refine Text.isBare_append (Text.isBare_append (Text.isBare_append (Text.isBare_append rfl
      hname.name.isBare) rfl) ?_) rfl
    cases p.language <;> rfl
  have hwrite := Stroke.brackets_write hinclude
  unfold Output.definitionsScript
  cases hpackage : u.package? with
  | none => exact (append (cons hwrite (still rfl)) hscripts).append (still rfl)
  | some k =>
    have hopen := brackets_openNamespace ((hu.package hpackage).worded hclear)
    refine enclose (o := '\x7b') (c := '\x7d') rfl ?_ hscripts rfl
    rw [brackets_cons, hwrite, brackets_cons, Option.toList_some, List.flatMap_singleton,
      brackets_cons, hopen]
    rfl

end Script.Closed

/-! ## Files -/

/-- What is written has the brackets that its script writes. -/
theorem Kept.nested {j : Job} {lost : List Span} {r : Script} {g : Stage} {q : Pen}
    (h : Kept j false [] 0 lost r.brackets g q) (hr : r.Closed) :
    Nested (Scan.brackets .code q.sink.text.toList) := by
  obtain ⟨e, he, -, -, hbrackets⟩ := h.text
  obtain rfl : q.sink.text.toList = e := he
  rw [hbrackets]
  exact hr

/-- Let every literal of a parsed source end where the pass over comments leaves it. Then the round,
square and curly brackets outside the comments and literals of every file that the source becomes
are nested, in either target. -/
theorem files_nested {name text : String} {p : Parsed} {t : Derivation Rule}
    (h : Java.parse name text = .ok p) (ht : Java.derivation? p.source = some t)
    (hlit : Java.literalsEnd p.source (Rule.grammar.lexemes t) = true) (l : Target.Language)
    {fs : List File} (hfiles : (Job.mk p.source (.default l)).files p.unit = .ok fs) :
    ∀ f ∈ fs, Nested (Scan.brackets .code f.contents.toList) := by
  intro f hf
  have hplain : (Target.Profile.default l).isPlain = true := by cases l <;> decide
  have hbare : (Setting.ofProfile (.default l)).Bare :=
    .ofProfile (by cases l <;> decide)
  obtain ⟨hj, hu⟩ := orderly_of_parse h ht hlit hplain false fun _ => rfl
  obtain ⟨i, d, gs, hd, hgs, hf⟩ := (Job.filesFrom_ok hfiles).2 f hf
  have hmem := List.mem_of_getElem? hd
  obtain ⟨q, hq, hcontents⟩ := Job.typeFiles_ok hgs
  rcases hcontents f hf with htext | ⟨hcpp, q', hq', htext⟩
  · rw [htext]
    exact (Kept.declaration hj hu hmem hq).nested (.declarationScript hbare hj.clear hu hmem _)
  · rw [htext]
    exact (Kept.definitions hj hcpp hu hmem hq').nested (.definitionsScript hbare hj.clear hu hmem)

/-- Brackets in comments and literals, a namespace, a list of items and an index. -/
def bracketedText : String :=
  "package a.b;import c.D;class A\x7b//(\n\tint[]f(int[]n)throws E\x7bn[0]=')';" ++
  "return new int[]\x7b1,(2)\x7d;\x7d/*]*/String s=\x22\x7b\x22;\x7d"

theorem files_nested_sample : ∃ p t fs, Java.parse "A.java" bracketedText = .ok p ∧
    Java.derivation? p.source = some t ∧
    Java.literalsEnd p.source (Rule.grammar.lexemes t) = true ∧
    (Job.mk p.source (.default .cpp)).files p.unit = .ok fs ∧
    ∀ f ∈ fs, Nested (Scan.brackets .code f.contents.toList) := by
  obtain ⟨p, t, fs, h, ht, hlit, hfiles⟩ :=
    exists_files "A.java" bracketedText (.default .cpp) (by decide +kernel)
  exact ⟨p, t, fs, h, ht, hlit, hfiles, files_nested h ht hlit .cpp hfiles⟩

end Transcribe
