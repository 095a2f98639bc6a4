/-
  Transcribe.Proofs.Saved — what a run over many sources leaves in its directory.

  The files of all sources go into one directory and are named by their types alone. They are
  written one after the other, so of two files of one name the later one stays, and both count as
  written.

  A file system is `Mapped` if its calls succeed and its files are a map from paths to texts, which
  reading leaves alone and writing changes at one path. On such a system a run over sources comes to
  the map behind all their files (`outputs`, `savedIn`), in which a name has the text of the last
  file of that name (`lastNamed?`). Two classes of one name in two packages are enough to lose one.
  - `FileSystem.Mapped`: calls that succeed, on a map from paths to texts.
  - `settleEach_run`: what the map is behind the files of all sources.
  - `saved_iff_agreeing`: nothing is lost exactly if files of one name have one text.
-/

import Transcribe.Command.Run
import Mathlib.Data.List.Induction
import Mathlib.Logic.Function.Basic

namespace Transcribe.Command

open Output (File Input Outcome)
open Target (Language Profile)

/-! ## File systems as maps -/

/-- A file system whose calls succeed and whose files are a map from paths to texts. Reading changes
nothing, and writing changes the text of one path. -/
structure FileSystem.Mapped {σ : Type} (fs : FileSystem (StateM σ))
    (text? : σ → String → Option String) : Prop where
  read : ∀ path s, (fs.read path).run s = (text? s path, s)
  isDirectory : ∀ path s, ∃ b, (fs.isDirectory path).run s = (b, s)
  walk : ∀ path s, ∃ r, (fs.walk path).run s = (r, s)
  createDirectories : ∀ path s, ∃ s', (fs.createDirectories path).run s = (true, s') ∧
    text? s' = text? s
  write : ∀ path text s, ∃ s', (fs.write path text).run s = (true, s') ∧
    text? s' = Function.update (text? s) path (some text)

theorem Path.join_injective (directory : String) : Function.Injective (Path.join directory) := by
  intro a b h
  unfold Path.join at h
  split at h
  · exact h
  · split at h
    · exact (String.append_right_inj _).1 h
    · exact (String.append_right_inj _).1 h

def savedIn (directory : String) (files : List File) (m : String → Option String) :
    String → Option String :=
  files.foldl (fun m f => Function.update m (Path.join directory f.name) (some f.contents)) m

def lastNamed? (files : List File) (name : String) : Option File :=
  files.reverse.find? (·.name == name)

/-- Of the files of one name the last one stays. -/
theorem savedIn_join (directory : String) (files : List File) (m : String → Option String)
    (name : String) : savedIn directory files m (Path.join directory name)
      = match lastNamed? files name with
        | some g => some g.contents
        | none => m (Path.join directory name) := by
  induction files using List.reverseRecOn with
  | nil => rfl
  | append_singleton files f ih =>
    rw [savedIn, List.foldl_append, List.foldl_cons, List.foldl_nil, ← savedIn, lastNamed?,
      List.reverse_append, List.reverse_singleton, List.singleton_append, List.find?_cons]
    by_cases hname : f.name = name
    · simp [hname]
    · have hpath : Path.join directory name ≠ Path.join directory f.name := fun h =>
        hname (Path.join_injective directory h).symm
      rw [Function.update_of_ne hpath, ih, beq_false_of_ne hname]
      rfl

theorem lastNamed?_of_mem {files : List File} {f : File} (h : f ∈ files) :
    ∃ g ∈ files, lastNamed? files f.name = some g ∧ g.name = f.name := by
  have hsome : (lastNamed? files f.name).isSome = true := by
    rw [lastNamed?, List.find?_isSome]
    exact ⟨f, List.mem_reverse.2 h, beq_self_eq_true _⟩
  obtain ⟨g, hg⟩ := Option.isSome_iff_exists.1 hsome
  have hname : (g.name == f.name) = true := List.find?_some (p := fun e : File => e.name == f.name) hg
  exact ⟨g, List.mem_reverse.1 (List.mem_of_find?_eq_some hg), hg, beq_iff_eq.1 hname⟩

/-! ## Writing files -/

section

variable {σ : Type} {fs : FileSystem (StateM σ)} {text? : σ → String → Option String}

theorem exists_run {α : Type} (x : StateM σ α) (s : σ) : ∃ a s', x.run s = (a, s') :=
  ⟨_, _, rfl⟩

theorem run_bind_of {α β : Type} {x : StateM σ α} {f : α → StateM σ β} {s s' : σ} {a : α}
    (h : x.run s = (a, s')) : (x >>= f).run s = (f a).run s' := by
  have hbind : (x >>= f).run s = (f (x.run s).1).run (x.run s).2 := rfl
  rw [hbind, h]

theorem saveEach_run (h : fs.Mapped text?) (directory : String) (files : List File) (s : σ) :
    ∃ paths s', (saveEach fs directory files).run s = (.ok paths, s') ∧
      text? s' = savedIn directory files (text? s) := by
  induction files generalizing s with
  | nil => exact ⟨[], s, rfl, rfl⟩
  | cons f files ih =>
    obtain ⟨s₁, hwrite, hs₁⟩ := h.write (Path.join directory f.name) f.contents s
    obtain ⟨paths, s₂, hrest, hs₂⟩ := ih s₁
    refine ⟨Path.join directory f.name :: paths, s₂, ?_, ?_⟩
    · rw [saveEach, run_bind_of hwrite, if_pos rfl, run_bind_of hrest]
      rfl
    · rw [hs₂, hs₁]
      rfl

theorem saveFiles_run (h : fs.Mapped text?) (directory : String) (files : List File) (s : σ) :
    ∃ paths s', (saveFiles fs directory files).run s = (.ok paths, s') ∧
      text? s' = savedIn directory files (text? s) := by
  obtain ⟨s₁, hcreate, hs₁⟩ := h.createDirectories directory s
  obtain ⟨paths, s₂, hsave, hs₂⟩ := saveEach_run h directory files s₁
  refine ⟨paths, s₂, ?_, by rw [hs₂, hs₁]⟩
  rw [saveFiles, run_bind_of hcreate, if_pos rfl, hsave]

def Output.Outcome.files (o : Outcome) : List File :=
  match o.result with
  | .ok files => files
  | .error _ => []

/-- The files of all sources are written one after the other, and a source that became none is noted
as failed. -/
theorem settleEach_run (h : fs.Mapped text?) (out : String) (os : List Outcome) (s : σ) :
    ∃ notes s', (settleEach fs (some out) os).run s = (notes, s') ∧
      text? s' = savedIn out (os.flatMap Output.Outcome.files) (text? s) ∧
      (notes.countP Note.isFailed = 0 → ∀ o ∈ os, ∃ files, o.result = .ok files) := by
  induction os generalizing s with
  | nil => exact ⟨[], s, rfl, rfl, by simp⟩
  | cons o os ih =>
    cases hresult : o.result with
    | error p =>
      obtain ⟨notes, s', hrest, htext, -⟩ := ih s
      have hsettle : (settle fs (some out) o).run s = (.error p, s) := by
        simp only [settle, hresult]
        rfl
      refine ⟨.failed o.name :: .report p :: notes, s', ?_, ?_, fun hnone => ?_⟩
      · rw [settleEach, run_bind_of hsettle]
        exact run_bind_of hrest
      · simpa [Output.Outcome.files, hresult] using htext
      · simp [Note.isFailed] at hnone
    | ok files =>
      obtain ⟨paths, s₁, hsave, hs₁⟩ := saveFiles_run h out files s
      obtain ⟨notes, s', hrest, htext, hall⟩ := ih s₁
      have hsettle : (settle fs (some out) o).run s = (.ok paths.length, s₁) := by
        simp only [settle, hresult]
        exact run_bind_of hsave
      refine ⟨.ok o.name paths.length :: notes, s', ?_, ?_, fun hnone => ?_⟩
      · rw [settleEach, run_bind_of hsettle]
        exact run_bind_of hrest
      · rw [htext, hs₁, List.flatMap_cons, savedIn, savedIn, savedIn, List.foldl_append]
        simp [Output.Outcome.files, hresult]
      · rw [List.countP_cons_of_neg (by simp [Note.isFailed])] at hnone
        exact List.forall_mem_cons.2 ⟨⟨files, hresult⟩, hall hnone⟩

/-! ## Reading -/

theorem loadProfile_run (h : fs.Mapped text?) (target : Language) (profile? : Option String) (s : σ) :
    ∃ r, (loadProfile fs target profile?).run s = (r, s) := by
  cases profile? with
  | none => exact ⟨_, rfl⟩
  | some path =>
    cases htext : text? s path with
    | none => exact ⟨_, run_bind_of (htext ▸ h.read path s)⟩
    | some text => exact ⟨_, run_bind_of (htext ▸ h.read path s)⟩

theorem sourcesAt_run (h : fs.Mapped text?) (path : String) (s : σ) :
    ∃ r, (sourcesAt fs path).run s = (r, s) := by
  obtain ⟨b, hdirectory⟩ := h.isDirectory path s
  obtain ⟨r, hwalk⟩ := h.walk path s
  cases b with
  | false => exact ⟨_, run_bind_of hdirectory⟩
  | true =>
    cases r with
    | none => exact ⟨_, (run_bind_of hdirectory).trans (run_bind_of hwalk)⟩
    | some files => exact ⟨_, (run_bind_of hdirectory).trans (run_bind_of hwalk)⟩

theorem sourcesOf_run (h : fs.Mapped text?) (paths : List String) (s : σ) :
    ∃ r, (sourcesOf fs paths).run s = (r, s) := by
  induction paths with
  | nil => exact ⟨_, rfl⟩
  | cons path paths ih =>
    obtain ⟨first, hfirst⟩ := sourcesAt_run h path s
    obtain ⟨rest, hrest⟩ := ih
    cases first with
    | error p => exact ⟨_, run_bind_of hfirst⟩
    | ok first =>
      cases rest with
      | error p => exact ⟨_, (run_bind_of hfirst).trans (run_bind_of hrest)⟩
      | ok rest => exact ⟨_, (run_bind_of hfirst).trans (run_bind_of hrest)⟩

/-- Without a note all sources were read. -/
theorem readEach_run (h : fs.Mapped text?) (sources : List String) (s : σ) :
    ∃ inputs notes, (readEach fs sources).run s = ((inputs, notes), s) ∧
      (∀ i ∈ inputs, text? s i.name = some i.text) ∧
      (notes.countP Note.isFailed = 0 → inputs.map (·.name) = sources) := by
  induction sources with
  | nil => exact ⟨[], [], rfl, by simp, by simp⟩
  | cons path sources ih =>
    obtain ⟨inputs, notes, hrest, htexts, hnames⟩ := ih
    cases htext : text? s path with
    | none =>
      have hload : (loadSource fs path).run s = (.error (.file (.read path)), s) :=
        run_bind_of (htext ▸ h.read path s)
      refine ⟨inputs, .failed path :: .report (.file (.read path)) :: notes, ?_, htexts, fun hnone => ?_⟩
      · exact (run_bind_of hload).trans (run_bind_of hrest)
      · simp [Note.isFailed] at hnone
    | some text =>
      have hload : (loadSource fs path).run s = (.ok ⟨path, text⟩, s) :=
        run_bind_of (htext ▸ h.read path s)
      refine ⟨⟨path, text⟩ :: inputs, notes, ?_, List.forall_mem_cons.2 ⟨htext, htexts⟩, fun hnone => ?_⟩
      · exact (run_bind_of hload).trans (run_bind_of hrest)
      · simp [hnames hnone]

/-! ## Whole runs -/

def outputs (profile : Profile) (inputs : List Input) : List File :=
  (Output.batch profile inputs).flatMap Output.Outcome.files

theorem mem_outputs {profile : Profile} {inputs : List Input} {i : Input} (hi : i ∈ inputs)
    {files : List File} (hfiles : Output.transcribe profile i = .ok files) {f : File} (hf : f ∈ files) :
    f ∈ outputs profile inputs := by
  refine List.mem_flatMap.2 ⟨⟨i.name, Output.transcribe profile i⟩, List.mem_map_of_mem hi, ?_⟩
  rwa [Output.Outcome.files, hfiles]

theorem exists_input {profile : Profile} {inputs : List Input} {f : File}
    (hf : f ∈ outputs profile inputs) :
    ∃ i ∈ inputs, ∃ files, Output.transcribe profile i = .ok files ∧ f ∈ files := by
  obtain ⟨o, ho, hf⟩ := List.mem_flatMap.1 hf
  obtain ⟨i, hi, rfl⟩ := List.mem_map.1 ho
  cases hfiles : Output.transcribe profile i with
  | error p => simp [Output.Outcome.files, hfiles] at hf
  | ok files =>
    rw [Output.Outcome.files, hfiles] at hf
    exact ⟨i, hi, files, hfiles, hf⟩

/-- A run that ends with code 0 has read a profile and all sources, all of them became files, and these
were written. -/
theorem save_ok (h : fs.Mapped text?) {paths : List String} {target : Language} {out : String}
    {profile? : Option String} {s s' : σ} {run : Run}
    (hrun : ((Request.save paths target out profile?).run fs).run s = (run, s'))
    (hcode : run.code = 0) :
    ∃ profile inputs, ((loadProfile fs target profile?).run s).1 = .ok profile ∧
      ((sourcesOf fs paths).run s).1 = .ok (inputs.map (·.name)) ∧
      (∀ i ∈ inputs, text? s i.name = some i.text) ∧
      (∀ i ∈ inputs, ∃ files, Output.transcribe profile i = .ok files) ∧
      text? s' = savedIn out (outputs profile inputs) (text? s) := by
  obtain ⟨loaded, hload⟩ := loadProfile_run h target profile? s
  rw [Request.run, runAll, run_bind_of hload] at hrun
  cases loaded with
  | error p =>
    obtain ⟨rfl, -⟩ := Prod.mk.inj hrun
    cases hcode
  | ok profile =>
    obtain ⟨found, hsources⟩ := sourcesOf_run h paths s
    rw [run_bind_of hsources] at hrun
    cases found with
    | error p =>
      obtain ⟨rfl, -⟩ := Prod.mk.inj hrun
      cases hcode
    | ok sources =>
      obtain ⟨inputs, unread, hread, htexts, hnames⟩ := readEach_run h sources s
      obtain ⟨settled, s₁, hsettle, htext, hall⟩ := settleEach_run h out (Output.batch profile inputs) s
      rw [run_bind_of hread] at hrun
      dsimp only at hrun
      rw [run_bind_of hsettle] at hrun
      obtain ⟨rfl, rfl⟩ := Prod.mk.inj hrun
      have hnone : (unread ++ settled).countP Note.isFailed = 0 := by
        by_contra hne
        rw [Run.ofNotes, if_neg hne] at hcode
        cases hcode
      rw [List.countP_append, Nat.add_eq_zero_iff] at hnone
      refine ⟨profile, inputs, by rw [hload], by rw [hsources, hnames hnone.1], htexts, fun i hi => ?_,
        htext⟩
      have hmem : ⟨i.name, Output.transcribe profile i⟩ ∈ Output.batch profile inputs :=
        List.mem_map_of_mem hi
      obtain ⟨files, hfiles⟩ := hall hnone.2 _ hmem
      dsimp only at hfiles
      exact ⟨files, hfiles⟩

/-- After a run that ends with code 0 every file of every source was written, and at its path stands
the last file of its name. So nothing is lost if and only if any two files of one name have the same
text. -/
theorem saved_iff_agreeing (h : fs.Mapped text?) {paths : List String} {target : Language}
    {out : String} {profile? : Option String} {s s' : σ} {run : Run}
    (hrun : ((Request.save paths target out profile?).run fs).run s = (run, s'))
    (hcode : run.code = 0) :
    ∃ profile inputs, ((loadProfile fs target profile?).run s).1 = .ok profile ∧
      ((sourcesOf fs paths).run s).1 = .ok (inputs.map (·.name)) ∧
      (∀ i ∈ inputs, text? s i.name = some i.text) ∧
      (∀ i ∈ inputs, ∃ files, Output.transcribe profile i = .ok files ∧ ∀ f ∈ files,
        ∃ g, lastNamed? (outputs profile inputs) f.name = some g ∧
          text? s' (Path.join out f.name) = some g.contents) ∧
      ((∀ i ∈ inputs, ∀ files, Output.transcribe profile i = .ok files → ∀ f ∈ files,
          text? s' (Path.join out f.name) = some f.contents) ↔
        ∀ f ∈ outputs profile inputs, ∀ g ∈ outputs profile inputs, f.name = g.name →
          f.contents = g.contents) := by
  obtain ⟨profile, inputs, hprofile, hsources, htexts, hall, hsaved⟩ := save_ok h hrun hcode
  have hlast : ∀ f ∈ outputs profile inputs, ∃ g ∈ outputs profile inputs,
      lastNamed? (outputs profile inputs) f.name = some g ∧ g.name = f.name ∧
        text? s' (Path.join out f.name) = some g.contents := by
    intro f hf
    obtain ⟨g, hg, hlast, hname⟩ := lastNamed?_of_mem hf
    exact ⟨g, hg, hlast, hname, by rw [hsaved, savedIn_join, hlast]⟩
  refine ⟨profile, inputs, hprofile, hsources, htexts, fun i hi => ?_, fun hkept => ?_,
    fun hagree i hi files hfiles f hf => ?_⟩
  · obtain ⟨files, hfiles⟩ := hall i hi
    refine ⟨files, hfiles, fun f hf => ?_⟩
    obtain ⟨g, -, hlast, -, htext⟩ := hlast f (mem_outputs hi hfiles hf)
    exact ⟨g, hlast, htext⟩
  · have hstays : ∀ f ∈ outputs profile inputs,
        text? s' (Path.join out f.name) = some f.contents := by
      intro f hf
      obtain ⟨i, hi, files, hfiles, hf⟩ := exists_input hf
      exact hkept i hi files hfiles f hf
    intro f hf g hg hname
    exact Option.some.inj ((hstays f hf).symm.trans (hname ▸ hstays g hg))
  · have hmem := mem_outputs hi hfiles hf
    obtain ⟨g, hg, -, hname, htext⟩ := hlast f hmem
    rw [htext, hagree g hg f hmem hname]

end

/-! ## Two types of one name -/

def memory : FileSystem (StateM (String → Option String)) where
  read path := return (← get) path
  isDirectory _ := return false
  walk _ := return some []
  createDirectories _ := return true
  write path text := do
    modify fun m => Function.update m path (some text)
    return true

theorem mapped_memory : memory.Mapped id where
  read _ _ := rfl
  isDirectory _ _ := ⟨_, rfl⟩
  walk _ _ := ⟨_, rfl⟩
  createDirectories _ _ := ⟨_, rfl, rfl⟩
  write _ _ _ := ⟨_, rfl, rfl⟩

def namesakes : List Input :=
  [⟨"a/A.java", "package a;class A\x7b\x7d"⟩, ⟨"b/A.java", "package b;class A\x7b\x7d"⟩]

def namesakeFiles (path : String) : Option String :=
  (namesakes.find? (·.name == path)).map (·.text)

def namesakeRequest : Request := .save ["a/A.java", "b/A.java"] .csharp "out" none

theorem saved_iff_agreeing_namesakes :
    ∃ run s' profile inputs, (namesakeRequest.run memory).run namesakeFiles = (run, s') ∧
      run.code = 0 ∧ inputs.map (·.name) = ["a/A.java", "b/A.java"] ∧
      ((∀ i ∈ inputs, ∀ files, Output.transcribe profile i = .ok files → ∀ f ∈ files,
          s' (Path.join "out" f.name) = some f.contents) ↔
        ∀ f ∈ outputs profile inputs, ∀ g ∈ outputs profile inputs, f.name = g.name →
          f.contents = g.contents) := by
  have hcode : ((namesakeRequest.run memory).run namesakeFiles).1.code = 0 := by decide +kernel
  obtain ⟨run, s', hrun⟩ := exists_run (namesakeRequest.run memory) namesakeFiles
  rw [hrun] at hcode
  obtain ⟨profile, inputs, -, hsources, -, -, hiff⟩ := saved_iff_agreeing mapped_memory hrun hcode
  exact ⟨_, _, profile, inputs, hrun, hcode, (Except.ok.inj hsources).symm, hiff⟩

/-- The file of the first class is lost, and the run reports both sources as written. -/
theorem namesake_lost :
    ((namesakeRequest.run memory).run namesakeFiles).1.code = 0 ∧
    ((namesakeRequest.run memory).run namesakeFiles).1.notes
      = [.ok "a/A.java" 1, .ok "b/A.java" 1, .summary 2 0] ∧
    ∃ i ∈ namesakes, ∃ files, Output.transcribe .csharp i = .ok files ∧ ∃ f ∈ files,
      ((namesakeRequest.run memory).run namesakeFiles).2 (Path.join "out" f.name)
        ≠ some f.contents := by
  have hfiles : (Output.transcribe .csharp ⟨"a/A.java", "package a;class A\x7b\x7d"⟩).toOption
      = some [⟨"A.cs", "namespace a;class A\x7b\x7d\n"⟩] := by decide +kernel
  refine ⟨by decide +kernel, by decide +kernel, _, List.mem_cons_self, ?_⟩
  cases htranscribe : Output.transcribe .csharp ⟨"a/A.java", "package a;class A\x7b\x7d"⟩ with
  | error p =>
    rw [htranscribe] at hfiles
    cases hfiles
  | ok files =>
    rw [htranscribe] at hfiles
    obtain rfl := Option.some.inj hfiles
    exact ⟨_, rfl, _, List.mem_cons_self, by decide +kernel⟩

end Transcribe.Command
