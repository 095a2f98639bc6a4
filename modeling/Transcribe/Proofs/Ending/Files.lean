/-
  Transcribe.Proofs.Ending.Files — files have the line breaks of their source.

  Space and comments are copied, a line that is closed is closed with the first break of the source,
  and no word has a break in it as long as the tables of the profile have none (`isLined`). Where
  the source mixes its breaks the files mix them too; where it does not, neither do they.
  - `files_endings`: if all line breaks of a text are the same, so are those of its files.
-/

import Transcribe.Proofs.Ending.Script
import Transcribe.Proofs.Keep.Files

namespace Transcribe

open Output (File)

def Target.Table.isLined (t : Target.Table) : Bool := t.entries.all fun e => isLine e.2

def Target.Profile.isLined (p : Target.Profile) : Bool :=
  p.primitiveTypes.isLined && p.typeRenames.isLined

theorem isLine_of_get? {t : Target.Table} (h : t.isLined = true) {k v : String}
    (hv : t.get? k = some v) : isLine v = true := by
  obtain ⟨l₁, l₂, hentries, -⟩ := List.lookup_eq_some_iff.1 hv
  exact List.all_eq_true.1 h (k, v) (by simp [hentries])

theorem lined_of_isLined {p : Target.Profile} (h : p.isLined = true) : p.Lined := by
  obtain ⟨hprimitives, hrenames⟩ := Bool.and_eq_true_iff.1 h
  refine ⟨fun k => ?_, fun n t ht => ?_⟩
  · unfold Target.Profile.primitive
    cases hk : p.primitiveTypes.get? (Java.word k) with
    | none => exact isLine_word rfl k
    | some v => exact isLine_of_get? hprimitives hk
  · unfold Target.Profile.renamed? at ht
    split at ht
    · rename_i v hv
      cases ht
      exact isLine_of_get? hrenames hv
    · exact isLine_of_get? hrenames ht

/-- A run over an even script from the start of the source writes no break but those of the
source. -/
theorem Job.even_text {j : Job} {e : String} {r : Script} {q : Pen}
    (hs : Text.Even e j.source.chars) (hne : Text.breaks j.source.chars ≠ [])
    (hr : r.Even e j.source) (h : j.run r j.pen = .ok q) : Text.Even e q.sink.text.toList :=
  (even_of_run hs hne hr ⟨Text.Source.whole_zero, .nil⟩ h).text

/-- Let a text that is read have line breaks, all of them `e`, and let the tables of the target spell
none. Then all line breaks of the files the text becomes are `e`. -/
theorem files_endings {name text : String} {p : Java.Parsed} (h : Java.parse name text = .ok p)
    {e : String} (hsome : Text.breaks text.toList ≠ []) (he : ∀ b ∈ Text.breaks text.toList, b = e)
    {profile : Target.Profile} (hprofile : profile.isLined = true) {fs : List File}
    (hfiles : (Job.mk p.source profile).files p.unit = .ok fs) :
    ∀ f ∈ fs, ∀ b ∈ Text.breaks f.contents.toList, b = e := by
  intro f hf
  have hu := Java.tidy_of_parse h
  have hp := lined_of_isLined hprofile
  obtain ⟨hsource, -⟩ := Java.parseSource_of_parse h
  have hchars : p.source.chars = text.toList := by rw [hsource]; rfl
  rw [← hchars] at hsome he
  obtain ⟨i, d, gs, hd, hgs, hf⟩ := (Job.filesFrom_ok hfiles).2 f hf
  have hmem := List.mem_of_getElem? hd
  obtain ⟨q, hq, hcontents⟩ := Job.typeFiles_ok hgs
  rcases hcontents f hf with htext | ⟨-, q', hq', htext⟩
  · rw [htext]
    exact Job.even_text (j := ⟨p.source, profile⟩) he hsome
      (Script.Even.declarationScript hu hp hmem _) hq
  · rw [htext]
    exact Job.even_text (j := ⟨p.source, profile⟩) he hsome
      (Script.Even.definitionsScript hp hu hmem) hq'

/-- A comment over two lines, a label on a line of its own and a body that is moved to the left. -/
def pairedText : String :=
  "package p;\r\nimport q.R;\r\nclass A\x7b\r\n\t/*a\r\n\t b*/int f()\r\n\t\x7b\r\n\t\treturn 1;\r\n\t\x7d\r\n\x7d"

theorem files_endings_sample : ∃ p fs, Java.parse "A.java" pairedText = .ok p ∧
    (Job.mk p.source .cpp).files p.unit = .ok fs ∧ fs.length = 2 ∧
    Text.breaks pairedText.toList ≠ [] ∧ (∀ b ∈ Text.breaks pairedText.toList, b = "\r\n") ∧
    ∀ f ∈ fs, ∀ b ∈ Text.breaks f.contents.toList, b = "\r\n" := by
  have h : (Java.parse "A.java" pairedText).toOption.any (fun p =>
      ((Job.mk p.source .cpp).files p.unit).toOption.any (·.length == 2)) = true := by
    decide +kernel
  have hsome : Text.breaks pairedText.toList ≠ [] := by decide
  have hall : ∀ b ∈ Text.breaks pairedText.toList, b = "\r\n" := by decide
  cases hp : Java.parse "A.java" pairedText with
  | error e =>
    rw [hp] at h
    cases h
  | ok p =>
    simp only [hp, Except.toOption, Option.any_some] at h
    cases hfs : (Job.mk p.source .cpp).files p.unit with
    | error e =>
      rw [hfs] at h
      cases h
    | ok fs =>
      simp only [hfs, Option.any_some, beq_iff_eq] at h
      exact ⟨p, fs, rfl, hfs, h, hsome, hall, files_endings hp hsome hall (by decide) hfs⟩

end Transcribe
