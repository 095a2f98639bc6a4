/-
  Transcribe.Proofs.Keep.Files — the comments of what a parsed source becomes.

  Take a parsed source in which the pass over comments leaves every literal where it ends, and words
  of the target without quotes, slashes and line breaks. Then the pass over a file that is written
  finds nothing but comments of the source, in their order and each at most once. In C# the comments
  of a type are all there but for those in four places.
  - `files_comments`: the comments of every file.
  - `decl_comments`: the comments of a type in C#.
-/

import Transcribe.Proofs.Keep.Output

namespace Transcribe

open Text (Span Source Scan isQuote isBreak)
open Text.Scan (Plain texts)
open Grammar (Lexeme Derivation calm)
open Java (TypeDecl CompilationUnit Node Rule Parsed)
open Java.Node (losses)
open Output (File)

/-! ## Words of the target -/

def Target.Table.isPlain (t : Target.Table) : Bool :=
  t.entries.all fun e => e.2.toList.all fun c => !isQuote c && c != '/' && !isBreak c

theorem plain_of_get? {t : Target.Table} (h : t.isPlain = true) {k v : String}
    (hv : t.get? k = some v) : Plain v.toList := by
  obtain ⟨l₁, l₂, hentries, -⟩ := List.lookup_eq_some_iff.1 hv
  have hchars := List.all_eq_true.1 h (k, v) (by simp [hentries])
  refine Scan.plain_of_calm ?_
  generalize v.toList = w at hchars
  induction w with
  | nil => rfl
  | cons c w ih =>
    obtain ⟨hc, hw⟩ := Bool.and_eq_true_iff.1 hchars
    exact Grammar.calm_append (v := [c]) (Bool.and_eq_true_iff.1 hc).1 (ih hw)

def Target.Profile.isPlain (p : Target.Profile) : Bool :=
  p.primitiveTypes.isPlain && p.typeRenames.isPlain

theorem plain_primitive {p : Target.Profile} (h : p.isPlain = true) (k : Java.Primitive) :
    Plain (p.primitive (Java.word k)).toList := by
  unfold Target.Profile.primitive
  cases hk : p.primitiveTypes.get? (Java.word k) with
  | none => cases k <;> exact Scan.plain_of_calm rfl
  | some v => exact plain_of_get? (Bool.and_eq_true_iff.1 h).1 hk

/-- A class is renamed to a spelling of the table. -/
theorem get?_of_renamed? {p : Target.Profile} {n t : String} (ht : p.renamed? n = some t) :
    ∃ k, p.typeRenames.get? k = some t := by
  unfold Target.Profile.renamed? at ht
  split at ht
  · rename_i v hv
    obtain rfl := Option.some.inj ht
    exact ⟨n, hv⟩
  · exact ⟨_, ht⟩

theorem plain_renamed {p : Target.Profile} (h : p.isPlain = true) {n t : String}
    (ht : p.renamed? n = some t) : Plain t.toList := by
  obtain ⟨k, hk⟩ := get?_of_renamed? ht
  exact plain_of_get? (Bool.and_eq_true_iff.1 h).2 hk

/-! ## Files -/

namespace Job

variable {j : Job} {u : CompilationUnit} {d : TypeDecl} {index : Nat} {fs : List File}

theorem file_ok {name extension : String} {script : Script} {f : File}
    (h : j.file name extension script = .ok f) :
    ∃ q, j.run script j.pen = .ok q ∧ f = ⟨name ++ "." ++ extension, q.sink.text⟩ := by
  unfold file text at h
  split at h
  · rename_i q hq
    exact ⟨q, hq, (Except.ok.inj h).symm⟩
  · cases h

/-- The files of a type: its declaration and, in C++, the definitions of its methods. -/
theorem typeFiles_eq (h : j.typeFiles u index d = .ok fs) :
    ∃ q rest, j.run (Output.declarationScript j.profile u index d) j.pen = .ok q ∧
      fs = ⟨d.head.name.text ++ "." ++ j.profile.language.extension, q.sink.text⟩ :: rest ∧
      rest.length = (if j.profile.isCpp then 1 else 0) ∧
      ∀ f ∈ rest, j.profile.isCpp = true ∧
        ∃ q', j.run (Output.definitionsScript j.profile u d) j.pen = .ok q' ∧
          f.contents = q'.sink.text := by
  unfold typeFiles at h
  cases hfile : j.file d.head.name.text j.profile.language.extension
      (Output.declarationScript j.profile u index d) with
  | error e => simp [hfile, bind, Except.bind] at h
  | ok f =>
    obtain ⟨q, hq, rfl⟩ := file_ok hfile
    simp only [hfile, bind, Except.bind] at h
    cases hlanguage : j.profile.language with
    | csharp =>
      simp only [hlanguage, Target.Language.sourceExtension?] at h
      refine ⟨q, [], hq, (Except.ok.inj h).symm, ?_, by simp⟩
      simp [Target.Profile.isCpp, hlanguage]
    | cpp =>
      simp only [hlanguage, Target.Language.sourceExtension?] at h
      cases hfile' : j.file d.head.name.text "cpp" (Output.definitionsScript j.profile u d) with
      | error e => simp [hfile'] at h
      | ok f' =>
        obtain ⟨q', hq', rfl⟩ := file_ok hfile'
        rw [hfile'] at h
        refine ⟨q, _, hq, (Except.ok.inj h).symm, ?_, fun g hg => ?_⟩
        · simp [Target.Profile.isCpp, hlanguage]
        · obtain rfl := List.mem_singleton.1 hg
          exact ⟨by simp [Target.Profile.isCpp, hlanguage], q', hq', rfl⟩

theorem typeFiles_ok (h : j.typeFiles u index d = .ok fs) :
    ∃ q, j.run (Output.declarationScript j.profile u index d) j.pen = .ok q ∧
      ∀ f ∈ fs, f.contents = q.sink.text ∨ j.profile.isCpp = true ∧
        ∃ q', j.run (Output.definitionsScript j.profile u d) j.pen = .ok q' ∧
          f.contents = q'.sink.text := by
  obtain ⟨q, rest, hq, rfl, -, hrest⟩ := typeFiles_eq h
  exact ⟨q, hq, List.forall_mem_cons.2 ⟨.inl rfl, fun f hf => .inr (hrest f hf)⟩⟩

/-- The files of a source are those of its types. -/
theorem filesFrom_ok {ds : List TypeDecl} (h : j.filesFrom u index ds = .ok fs) :
    (∀ i d, ds[i]? = some d → ∃ gs, j.typeFiles u (index + i) d = .ok gs) ∧
      ∀ f ∈ fs, ∃ i d gs, ds[i]? = some d ∧ j.typeFiles u (index + i) d = .ok gs ∧ f ∈ gs := by
  induction ds generalizing index fs with
  | nil =>
    obtain rfl := Except.ok.inj h
    exact ⟨by simp, by simp⟩
  | cons d ds ih =>
    rw [filesFrom] at h
    cases hfirst : j.typeFiles u index d with
    | error e => simp [hfirst, bind, Except.bind] at h
    | ok first =>
      cases hrest : j.filesFrom u (index + 1) ds with
      | error e => simp [hfirst, hrest, bind, Except.bind] at h
      | ok rest =>
        rw [hfirst, hrest] at h
        obtain rfl := Except.ok.inj h
        obtain ⟨hall, hmem⟩ := ih hrest
        constructor
        · rintro (_ | i) e he
          · obtain rfl := Option.some.inj he
            exact ⟨first, hfirst⟩
          · obtain ⟨gs, hgs⟩ := hall i e he
            exact ⟨gs, by rwa [Nat.add_right_comm] at hgs⟩
        · intro f hf
          rcases List.mem_append.1 hf with hf | hf
          · exact ⟨0, d, first, rfl, hfirst, hf⟩
          · obtain ⟨i, e, gs, he, hgs, hf⟩ := hmem f hf
            exact ⟨i + 1, e, gs, he, by rwa [Nat.add_right_comm] at hgs, hf⟩

end Job

/-! ## Comments -/

variable {name text : String} {p : Parsed} {t : Derivation Rule} {profile : Target.Profile}

/-- A parsed source in which every literal ends where the pass leaves it. -/
theorem orderly_of_parse (h : Java.parse name text = .ok p)
    (ht : Java.derivation? p.source = some t)
    (hlit : Java.literalsEnd p.source (Rule.grammar.lexemes t) = true)
    (hprofile : profile.isPlain = true) (strict : Bool)
    (hstrict : profile.isCpp = true → strict = false) :
    Orderly ⟨p.source, profile⟩ (Rule.grammar.lexemes t) strict ∧
      Java.SoundUnit p.source (Rule.grammar.lexemes t) p.unit := by
  have hclear := Java.clear_of_derivation ht hlit
  obtain ⟨-, hparse⟩ := Java.parseSource_of_parse h
  obtain ⟨t', ht', hu⟩ := Java.exists_derivation hparse
  obtain rfl : t' = t := by
    rw [ht] at ht'
    exact (Option.some.inj ht').symm
  obtain ⟨hin, hsound⟩ := Java.sound_of_derivation ht hclear.table hu
  exact ⟨⟨hclear, plain_primitive hprofile, fun _ _ => plain_renamed hprofile, hstrict⟩, hin, hsound⟩

/-- The comments of a source stand one behind the other. -/
theorem comments_rise (ht : Java.derivation? p.source = some t)
    (hlit : Java.literalsEnd p.source (Rule.grammar.lexemes t) = true) :
    p.source.comments.Pairwise fun a b => a.start < b.start := by
  have hbehind : p.source.comments.Pairwise fun a b => a.stop ≤ b.start := by
    obtain ⟨d, -, -, horder⟩ := Java.walk_of_derivation ht
    rw [(Java.clear_of_derivation ht hlit).table]
    refine List.Pairwise.filterMap _ (fun x y hxy a ha b hb => ?_) (List.pairwise_map.1 horder.pairwise)
    rwa [Lexeme.span_of_comment? ha, Lexeme.span_of_comment? hb] at hxy
  refine hbehind.imp_of_mem fun ha _ hab => ?_
  exact Nat.lt_of_lt_of_le (Source.start_lt_stop ha) hab

theorem forall₂_through {α β γ : Type} {R : α → γ → Prop} {S : β → γ → Prop} {as : List α}
    {bs : List β} {cs : List γ} (h : List.Forall₂ R as cs) (h' : List.Forall₂ S bs cs) :
    List.Forall₂ (fun a b => ∃ c, S b c ∧ R a c) as bs := by
  induction h generalizing bs with
  | nil =>
    cases h'
    exact .nil
  | cons hr _ ih =>
    cases h' with
    | cons hs h' => exact .cons ⟨_, hs, hr⟩ (ih h')

/-- What is kept in a text is what the pass finds in it. -/
theorem Kept.found {j : Job} {lost : List Span} {bs : List Char} {g : Stage} {q : Pen}
    (h : Kept j false [] 0 lost bs g q) :
    ∃ cs, cs.Sublist j.source.comments ∧
      List.Forall₂ (fun c o => ∃ w, Text.slice? q.sink.text.toList o = some w ∧ Copied j c w) cs
        (Text.comments q.sink.text.toList) := by
  obtain ⟨e, he, hledger, -⟩ := h.text
  obtain ⟨cs, hcs, -, hcopies⟩ := hledger.copies
  obtain rfl : q.sink.text.toList = e := he
  exact ⟨cs, hcs.trans List.filter_sublist, forall₂_through hcopies (Scan.slices_comments _)⟩

/-- Let every literal of a parsed source end where the pass over comments leaves it, and let the words
of the target have no quotes, slashes or line breaks. Then the comments that the pass finds in a file
are, in order, copies of comments of the source. These are in the order of the source, and no two are
the same. A copy may have less indentation, in C++, and blanks for tabs, if the profile asks for it. -/
theorem files_comments (h : Java.parse name text = .ok p) (ht : Java.derivation? p.source = some t)
    (hlit : Java.literalsEnd p.source (Rule.grammar.lexemes t) = true)
    (hprofile : profile.isPlain = true) {fs : List File}
    (hfiles : (Job.mk p.source profile).files p.unit = .ok fs) :
    ∀ f ∈ fs, ∃ cs, cs.Sublist p.source.comments ∧ (cs.Pairwise fun a b => a.start < b.start) ∧
      List.Forall₂ (fun c o => ∃ w, Text.slice? f.contents.toList o = some w ∧
        Copied ⟨p.source, profile⟩ c w) cs (Text.comments f.contents.toList) := by
  intro f hf
  obtain ⟨hj, hu⟩ := orderly_of_parse h ht hlit hprofile false fun _ => rfl
  obtain ⟨i, d, gs, hd, hgs, hf⟩ := (Job.filesFrom_ok hfiles).2 f hf
  have hmem := List.mem_of_getElem? hd
  obtain ⟨q, hq, hcontents⟩ := Job.typeFiles_ok hgs
  have hfound : ∃ cs, cs.Sublist p.source.comments ∧
      List.Forall₂ (fun c o => ∃ w, Text.slice? f.contents.toList o = some w ∧
        Copied ⟨p.source, profile⟩ c w) cs (Text.comments f.contents.toList) := by
    rcases hcontents f hf with htext | ⟨hcpp, q', hq', htext⟩
    · rw [htext]
      exact (Kept.declaration hj hu hmem hq).found
    · rw [htext]
      exact (Kept.definitions hj hcpp hu hmem hq').found
  obtain ⟨cs, hcs, hcopies⟩ := hfound
  exact ⟨cs, hcs, (comments_rise ht hlit).sublist hcs, hcopies⟩

/-- What a parsed text has to pass for its literals and its files. -/
theorem exists_files (name text : String) (profile : Target.Profile)
    (h : (Java.parse name text).toOption.any (fun p =>
      (Java.derivation? p.source).any (fun t =>
        Java.literalsEnd p.source (Rule.grammar.lexemes t)) &&
      ((Job.mk p.source profile).files p.unit).toOption.isSome) = true) :
    ∃ p t fs, Java.parse name text = .ok p ∧ Java.derivation? p.source = some t ∧
      Java.literalsEnd p.source (Rule.grammar.lexemes t) = true ∧
      (Job.mk p.source profile).files p.unit = .ok fs := by
  cases hp : Java.parse name text with
  | error e =>
    rw [hp] at h
    cases h
  | ok p =>
    simp only [hp, Except.toOption, Option.any_some, Bool.and_eq_true, Option.any_eq_true] at h
    obtain ⟨⟨t, ht, hlit⟩, hfiles⟩ := h
    cases hfs : (Job.mk p.source profile).files p.unit with
    | error e =>
      rw [hfs] at hfiles
      cases hfiles
    | ok fs => exact ⟨p, t, fs, rfl, ht, hlit, hfs⟩

def commentedText : String :=
  "class A\x7b\n\t//a\n\tString f(int n//b\n\t)\x7b/*c\n\td*/return\x22//\x22;\x7d//e\n\x7d"

theorem files_comments_sample : ∃ p t fs, Java.parse "A.java" commentedText = .ok p ∧
    Java.derivation? p.source = some t ∧
    Java.literalsEnd p.source (Rule.grammar.lexemes t) = true ∧
    (Job.mk p.source .cpp).files p.unit = .ok fs ∧
    ∀ f ∈ fs, ∃ cs, cs.Sublist p.source.comments ∧ (cs.Pairwise fun a b => a.start < b.start) ∧
      List.Forall₂ (fun c o => ∃ w, Text.slice? f.contents.toList o = some w ∧
        Copied ⟨p.source, .cpp⟩ c w) cs (Text.comments f.contents.toList) := by
  obtain ⟨p, t, fs, h, ht, hlit, hfiles⟩ :=
    exists_files "A.java" commentedText .cpp (by decide +kernel)
  have hprofile : Target.Profile.cpp.isPlain = true := by decide
  exact ⟨p, t, fs, h, ht, hlit, hfiles, files_comments h ht hlit hprofile hfiles⟩

/-! ## Types in C# -/

/-- Where neither indentation nor tabs are changed a copy is the comment itself. -/
theorem Copied.slice {j : Job} (hcpp : j.profile.isCpp = false) (htabs : j.profile.expandTabs = false)
    {c : Span} {w : List Char} (h : Copied j c w) : j.source.slice? c = some w := by
  obtain ⟨v, columns, hv, hcolumns, hcopy⟩ := h
  have hzero : columns = 0 := by
    by_contra hne
    rw [hcpp] at hcolumns
    exact Bool.false_ne_true (hcolumns hne)
  rw [hzero, htabs, Text.dedent_zero] at hcopy
  rw [hv, show w = v from hcopy]

/-- The pass finds in a text the very comments that were copied. -/
theorem slices_of_copied {j : Job} (hcpp : j.profile.isCpp = false)
    (htabs : j.profile.expandTabs = false) {cs : List Span} {e : List Char}
    (h : List.Forall₂ (Copied j) cs (texts .code e)) :
    (Text.comments e).map (Text.slice? e) = cs.map j.source.slice? := by
  refine List.forall₂_eq_eq_eq ▸ List.forall₂_map_left_iff.2 (List.forall₂_map_right_iff.2 ?_)
  refine (forall₂_through h (Scan.slices_comments e)).flip.imp fun o c ⟨w, ho, hc⟩ => ?_
  rw [ho, hc.slice hcpp htabs]

/-- In C#, with the tabs as they are, the comments in the text of a type are those of the source in
the type's span, verbatim and in their order, but for those in annotations, in dotted names of types,
between the types a class extends and the word `implements`, and between the parameters of a method
and the end of the types it throws. -/
theorem decl_comments (h : Java.parse name text = .ok p) (ht : Java.derivation? p.source = some t)
    (hlit : Java.literalsEnd p.source (Rule.grammar.lexemes t) = true)
    (hcsharp : profile.isCpp = false) (htabs : profile.expandTabs = false)
    (hprofile : profile.isPlain = true) {fs : List File}
    (hfiles : (Job.mk p.source profile).files p.unit = .ok fs) {index : Nat} {d : TypeDecl}
    (hd : p.unit.types[index]? = some d) :
    ∃ (before after : Pen) (e : String),
      (Job.mk p.source profile).run (Script.ofPrologue (.ofProfile profile) p.unit
        ++ Output.leadScript p.unit index d ++ [.copySpace]) (Job.mk p.source profile).pen
          = .ok before ∧
      (Job.mk p.source profile).run (Script.ofDecl (.ofProfile profile) d) before = .ok after ∧
      after.sink.text = before.sink.text ++ e ∧
      (Text.comments e.toList).map (Text.slice? e.toList)
        = (p.source.spared (losses p.source (Node.decl d).descendants) d.head.span.start
            d.head.span.stop).map p.source.slice? := by
  obtain ⟨hj, hu⟩ := orderly_of_parse h ht hlit hprofile true fun hcpp => by
    rw [hcsharp] at hcpp
    cases hcpp
  -- In front of the type comments may be missing, so the account up to there is not strict; at the
  -- type a new one is opened.
  have hloose := (orderly_of_parse h ht hlit hprofile false fun _ => rfl).1
  have hmem := List.mem_of_getElem? hd
  obtain ⟨gs, hgs⟩ := (Job.filesFrom_ok hfiles).1 index d hd
  rw [Nat.zero_add] at hgs
  obtain ⟨q, hq, -⟩ := Job.typeFiles_ok hgs
  obtain ⟨before, after, hbefore, hdecl, -⟩ := Kept.declaration_ok hq
  have hready := Kept.toNode hloose hu hmem hbefore
  have hfresh := Kept.start true hready.onCode hready.ruler hready.column hready.dedent
    (hready.trailing (by simp))
  have hkept := Keeps.ofDecl (s := .ofProfile profile) hj rfl rfl (hu.decl hmem) _ rfl
    (hfresh.mono rfl) hdecl
  obtain ⟨e, he, hledger, -⟩ := hkept.text
  obtain ⟨cs, -, hcs, hcopies⟩ := hledger.copies
  obtain rfl := hcs rfl
  have hframed : ∃ body, Script.ofDecl (.ofProfile profile) d = Script.framed d.head.span body :=
    ⟨_, by rw [Script.ofDecl, Script.ofMember]⟩
  obtain ⟨body, hbody⟩ := hframed
  have hstart : before.position = d.head.span.start := by
    rw [hbody] at hdecl
    obtain ⟨mid, hstart, -⟩ := Job.framed_ok hdecl
    exact hstart
  have hstop : after.position = d.head.span.stop := by
    have hcode : (Setting.ofProfile profile).isCpp = false := hcsharp
    rw [hbody] at hdecl
    exact ends_framed hdecl (hkept.trailing (by simp [hcode]))
  refine ⟨before, after, String.ofList e, hbefore, hdecl, ?_, ?_⟩
  · rw [← String.toList_inj, String.toList_append, String.toList_ofList]
    exact he
  · rw [String.toList_ofList, ← hstart, ← hstop]
    exact slices_of_copied hcsharp htabs hcopies

/-- Comments in an annotation, in a dotted name, before `implements`, behind parameters and elsewhere. -/
def lossyText : String :=
  "@a/*1*/.B class A/*2*/extends C/*3*/implements d/*4*/.E\x7bint f(/*5*/)/*6*/throws F/*7*/;//8\n\x7d"

theorem decl_comments_sample : ∃ p t fs, Java.parse "A.java" lossyText = .ok p ∧
    Java.derivation? p.source = some t ∧
    Java.literalsEnd p.source (Rule.grammar.lexemes t) = true ∧
    (Job.mk p.source .csharp).files p.unit = .ok fs ∧
    ∀ d, p.unit.types[0]? = some d → ∃ (before after : Pen) (e : String),
      (Job.mk p.source .csharp).run (Script.ofPrologue (.ofProfile .csharp) p.unit
        ++ Output.leadScript p.unit 0 d ++ [.copySpace]) (Job.mk p.source .csharp).pen
          = .ok before ∧
      (Job.mk p.source .csharp).run (Script.ofDecl (.ofProfile .csharp) d) before = .ok after ∧
      after.sink.text = before.sink.text ++ e ∧
      (Text.comments e.toList).map (Text.slice? e.toList)
        = (p.source.spared (losses p.source (Node.decl d).descendants) d.head.span.start
            d.head.span.stop).map p.source.slice? := by
  obtain ⟨p, t, fs, h, ht, hlit, hfiles⟩ :=
    exists_files "A.java" lossyText .csharp (by decide +kernel)
  exact ⟨p, t, fs, h, ht, hlit, hfiles, fun d hd =>
    decl_comments h ht hlit rfl rfl (by decide) hfiles hd⟩

end Transcribe
