/-
  Transcribe.Proofs.Reload.Document — loading a profile from its own text.

  The text of a profile is its seven fields below each other. Where no name or spelling in its
  tables needs quotes, each field reads back as its value: words and flags as themselves, widths by
  their digits, tables entry by entry. So the text gives the profile's own fields, and these make
  the profile again from the one of its language.

  The way is the one a text takes when it is loaded: characters, tokens (`Written`, by the steps of
  `Lexer`), nodes (`Node`), overrides, and the profile they make (`Merge`). Each module of this part
  does one step of it for all fields at once; here the fields are those of a profile (`fields`).
  - `Profile.toYaml_eq`: the text as fields.
  - `Format.overrides?_fields`: the fields as overrides.
  - `Profile.reloaded`: a profile that was loaded is loaded again.
-/

import Transcribe.Proofs.Reload.Merge
import Transcribe.Proofs.Reload.Node

namespace Transcribe.Data

/-! ## Numbers -/

theorem digitValue?_digitChar {d : Nat} (h : d < 10) : digitValue? (Nat.digitChar d) = some d := by
  have hall : ∀ d < 10, digitValue? (Nat.digitChar d) = some d := by decide
  exact hall d h

/-- The digits of a number give the number. -/
theorem ofDigits?_toDigits (n : Nat) : ofDigits? 10 (Nat.toDigits 10 n) = some n := by
  have hfold : (Nat.toDigits 10 n).foldlM (fun n c => (digitValue? c).bind fun d =>
      if d < 10 then some (10 * n + d) else none) 0 = some n := by
    induction n using Nat.strongRecOn with
    | ind n ih =>
      by_cases hn : n < 10
      · rw [Nat.toDigits_of_lt_base hn]
        simp [digitValue?_digitChar hn, hn]
      · have hmod : n % 10 < 10 := Nat.mod_lt n (by decide)
        have hdiv := Nat.div_add_mod n 10
        rw [Nat.toDigits_of_base_le (by decide) (by omega), List.foldlM_append,
          ih (n / 10) (by omega)]
        simp [digitValue?_digitChar hmod, hmod, hdiv]
  have hne : (Nat.toDigits 10 n).isEmpty = false := by simp [Nat.toDigits_ne_nil]
  rw [ofDigits?, hne]
  exact hfold

/-- A number that is not zero has no zero in front. -/
theorem head?_toDigits {n : Nat} (hn : 0 < n) : (Nat.toDigits 10 n).head? ≠ some '0' := by
  induction n using Nat.strongRecOn with
  | ind n ih =>
    by_cases hlt : n < 10
    · rw [Nat.toDigits_of_lt_base hlt]
      simpa using Nat.ne_of_gt hn
    · have hhead := ih (n / 10) (by omega) (by omega)
      rw [Nat.toDigits_of_base_le (by decide) (by omega)]
      rwa [List.head?_append_of_ne_nil _ Nat.toDigits_ne_nil]

namespace Yaml

theorem Word.nat?_toString {n : Nat} (hn : 0 < n) : Word.nat? (toString n) = some n := by
  have hzero := head?_toDigits hn
  have hvalue := ofDigits?_toDigits n
  have hdigit : ∀ c ∈ Nat.toDigits 10 n, c.isDigit = true := fun c hc =>
    Nat.isDigit_of_mem_toDigits (by decide) (by decide) hc
  obtain ⟨c, cs, hcs⟩ := List.exists_cons_of_ne_nil (Nat.toDigits_ne_nil (b := 10) (n := n))
  rw [hcs] at hzero hvalue hdigit
  have hplus : c ≠ '+' := by
    rintro rfl
    exact absurd (hdigit '+' List.mem_cons_self) (by decide)
  have hc : c ≠ '0' := by simpa using hzero
  have hbased : Word.based? (c :: cs) = none := by
    unfold Word.based?
    split
    · rename_i heq
      exact absurd (List.cons.inj heq).1 hc
    · rfl
  have hpadded : Word.isPadded (c :: cs) = false := by
    unfold Word.isPadded
    split
    · rename_i heq
      exact absurd (List.cons.inj heq).1 hc
    · rfl
  simp [Word.nat?, hcs, Word.unsigned, hplus, hbased, hpadded, hvalue]

/-- What is spelled like a number is not spelled like null. -/
theorem isNull_of_nat? {text : String} (h : (Word.nat? text).isSome = true) :
    (plain text).isNull = false := by
  rw [← Bool.not_eq_true]
  intro hnull
  simp only [plain, isNull, Word.isNull, Bool.or_eq_true, String.isEmpty_iff, List.contains_eq_mem,
    decide_eq_true_eq, List.mem_cons, List.not_mem_nil, or_false] at hnull
  rcases hnull with rfl | rfl | rfl | rfl | rfl <;> exact absurd h (by decide)

/-! ## Plain texts -/

theorem written_of_plain {t : String} (h : styleOf t = .plain) (indent : Nat) :
    written indent t = t := by
  simp only [written, h]

theorem lineEnd_of_plain {t : String} (h : styleOf t = .plain) : lineEnd t = "\n" := by
  simp [lineEnd, endsLine, h]

theorem toList_entryText {key value : String} (hkey : styleOf key = .plain)
    (hvalue : styleOf value = .plain) :
    (entryText key value).toList = ' ' :: ' ' :: (line key value ++ ['\n']) := by
  unfold entryText line
  rw [written_of_plain hkey, written_of_plain hvalue, lineEnd_of_plain hkey,
    lineEnd_of_plain hvalue]
  split <;> simp

end Yaml

end Transcribe.Data

namespace Transcribe.Target

open Data (Json Yaml)

namespace Profile

def fields (p : Profile) : List (String × Yaml.Field) :=
  [("language", .text p.language.word), ("pointer_style", .text p.pointerStyle.word),
   ("preferred_indent", .text (toString p.preferredIndent)),
   ("source_tab_stop", .text (toString p.sourceTabStop)),
   ("expand_tabs", .text (if p.expandTabs then "true" else "false")),
   ("primitive_types", .table p.primitiveTypes.entries),
   ("type_renames", .table p.typeRenames.entries)]

def IsPlain (p : Profile) : Prop :=
  ∀ t ∈ tableTexts p.primitiveTypes ++ tableTexts p.typeRenames, Yaml.styleOf t = .plain

theorem toList_tableYaml (name : String) {t : Table}
    (h : ∀ s ∈ tableTexts t, Yaml.styleOf s = .plain) :
    (tableYaml name t).toList = name.toList ++ (Yaml.Field.table t.entries).chars := by
  have hentry : ∀ e ∈ t.entries, (Yaml.entryText e.1 e.2).toList
      = ' ' :: ' ' :: (Yaml.line e.1 e.2 ++ ['\n']) := by
    intro e he
    exact Yaml.toList_entryText (h e.1 (List.mem_flatMap.2 ⟨e, he, by simp⟩))
      (h e.2 (List.mem_flatMap.2 ⟨e, he, by simp⟩))
  unfold tableYaml
  cases hentries : t.entries with
  | nil => simp [Yaml.Field.chars]
  | cons e es =>
    rw [hentries] at hentry
    have hlines : (e :: es).flatMap (fun d => (Yaml.entryText d.1 d.2).toList)
        = Yaml.lines (e :: es) := by
      simp only [List.flatMap_def, Yaml.lines, List.map_congr_left hentry]
    simp [Yaml.Field.chars, ← hlines, List.flatMap_map]

/-- No mark closes a text of plain scalars. -/
theorem isOpenEnded_of_plain {texts : List String} (h : ∀ t ∈ texts, Yaml.styleOf t = .plain) :
    Yaml.isOpenEnded texts = false := by
  have hnone : texts.filter (Yaml.styleOf · == .literal) = [] := by
    rw [List.filter_eq_nil_iff]
    intro t ht
    rw [h t ht]
    decide
  rw [Yaml.isOpenEnded, hnone]
  rfl

/-- The text of a profile without quotes is its fields below each other. -/
theorem toYaml_eq {p : Profile} (h : p.IsPlain) :
    p.toYaml = String.ofList (Yaml.fieldsChars p.fields) := by
  have hprimitive := toList_tableYaml "primitive_types" fun s hs =>
    h s (List.mem_append_left _ hs)
  have hrenames := toList_tableYaml "type_renames" fun s hs => h s (List.mem_append_right _ hs)
  have htext : ∀ value, (Yaml.Field.text value).chars
      = ": ".toList ++ (value.toList ++ "\n".toList) := fun value => rfl
  refine String.toList_inj.1 ?_
  unfold toYaml
  simp only [String.toList_append, isOpenEnded_of_plain h, Bool.false_eq_true, if_false,
    hprimitive, hrenames, String.toList_ofList, Yaml.fieldsChars, fields, List.flatMap_cons,
    List.flatMap_nil, htext, List.append_assoc]
  simp only [String.reduceToList, List.cons_append, List.nil_append, List.append_nil]

theorem isFlat_table {t : Table} (h : ∀ s ∈ tableTexts t, Yaml.styleOf s = .plain) :
    (Yaml.Field.table t.entries).IsFlat := by
  intro e he
  have hmem : ∀ s ∈ [e.1, e.2], s ∈ tableTexts t := fun s hs => List.mem_flatMap.2 ⟨e, he, hs⟩
  exact ⟨Yaml.flat_of_styleOf (h _ (hmem _ (by simp))),
    Yaml.flat_of_styleOf (h _ (hmem _ (by simp)))⟩

/-- No field of the profile needs quotes. -/
theorem isFlatField_fields {p : Profile} (h : p.IsPlain) : ∀ d ∈ p.fields, Yaml.IsFlatField d := by
  have hname : ∀ d ∈ p.fields, Yaml.Flat d.1.toList ∧ d.1.toList.length ≤ 1024 := by
    simp only [fields, List.forall_mem_cons]
    refine ⟨?_, ?_, ?_, ?_, ?_, ?_, ?_, by simp⟩ <;>
      exact ⟨Yaml.flat_of_word (by decide) (by decide), by decide⟩
  have hfield : ∀ d ∈ p.fields, d.2.IsFlat := by
    simp only [fields, List.forall_mem_cons]
    refine ⟨?_, ?_, Yaml.flat_toString _, Yaml.flat_toString _, ?_,
      isFlat_table fun s hs => h s (List.mem_append_left _ hs),
      isFlat_table fun s hs => h s (List.mem_append_right _ hs), by simp⟩
    · cases p.language <;> exact Yaml.flat_of_word (by decide) (by decide)
    · cases p.pointerStyle <;> exact Yaml.flat_of_word (by decide) (by decide)
    · cases p.expandTabs <;> exact Yaml.flat_of_word (by decide) (by decide)
  intro d hd
  exact ⟨(hname d hd).1, (hname d hd).2, hfield d hd⟩

end Profile

namespace Format

open Data.Yaml (plain)

/-- A plain scalar that is not null is the word it spells. -/
theorem yaml_optional {β : Type} {read : Yaml → Option β} {text : String} {b : β}
    (hnull : (plain text).isNull = false) (hread : read (plain text) = some b) :
    yaml.optional read (plain text) = some (some b) := by
  have hnull' : yaml.isNull (plain text) = false := hnull
  rw [optional, hnull', if_neg Bool.false_ne_true, hread]
  rfl

theorem yaml_language? (l : Language) : yaml.language? (plain l.word) = some (some l) := by
  refine yaml_optional ?_ ?_
  · cases l <;> decide
  · exact Language.ofWord?_word l

theorem yaml_pointerStyle? (s : PointerStyle) :
    yaml.pointerStyle? (plain s.word) = some (some s) := by
  refine yaml_optional ?_ ?_
  · cases s <;> decide
  · exact PointerStyle.ofWord?_word s

theorem yaml_length? {n : Nat} (hpos : 0 < n) (hlt : n < Nat.pow 2 64) :
    yaml.length? (plain (toString n)) = some (some n) := by
  have hnat := Data.Yaml.Word.nat?_toString hpos
  refine yaml_optional (Data.Yaml.isNull_of_nat? (Option.isSome_of_mem hnat)) ?_
  have hread : yaml.nat? (plain (toString n)) = some n := hnat
  rw [hread, Option.bind_some, if_pos hlt]

theorem yaml_flag? (b : Bool) :
    yaml.flag? (plain (if b then "true" else "false")) = some (some b) := by
  refine yaml_optional ?_ ?_ <;> cases b <;> decide

theorem yaml_table? (entries : List (String × String)) :
    yaml.table? (.mapping (entries.map fun e => (e.1, plain e.2))) = some entries := by
  show (entries.map fun e => (e.1, plain e.2)).mapM
    (fun e => (Data.Yaml.text? e.2).map (e.1, ·)) = some entries
  induction entries with
  | nil => rfl
  | cons e entries ih =>
    rw [List.map_cons, List.mapM_cons, ih]
    rfl

/-- The fields of a profile are read as its overrides. -/
theorem overrides?_fields {p : Profile} (hp : p.Fits) :
    yaml.overrides? (.mapping (p.fields.map fun d => (d.1, d.2.node)))
      = some (Overrides.ofProfile p) := by
  have hentries : yaml.entries? (.mapping (p.fields.map fun d => (d.1, d.2.node)))
      = some (p.fields.map fun d => (d.1, d.2.node)) := rfl
  have hnames : (p.fields.map fun d => (d.1, d.2.node)).map (·.1) = names := rfl
  simp only [overrides?, hentries, hnames, if_pos (show names.Nodup by decide)]
  simp only [setAll?, Profile.fields, List.map_cons, List.map_nil, List.foldlM_cons,
    List.foldlM_nil, set?, Data.Yaml.Field.node]
  rw [yaml_language?, yaml_pointerStyle?, yaml_length? hp.indent_pos hp.indent_lt,
    yaml_length? hp.tabStop_pos hp.tabStop_lt, yaml_flag?, yaml_table?, yaml_table?]
  rfl

end Format

namespace Profile

/-- What is read from the text of a profile without quotes are its own fields. -/
theorem overrides?_toYaml {p : Profile} (hp : p.Fits) (h : p.IsPlain) :
    (Yaml.ofText? p.toYaml).bind Format.yaml.overrides? = some (Overrides.ofProfile p) := by
  rw [toYaml_eq h, fields, Yaml.ofText?_fieldsChars (isFlatField_fields h), Option.bind_some]
  exact Format.overrides?_fields hp

theorem not_space_toYaml (p : Profile) : p.toYaml.toList.all isSpaceChar = false := by
  have hname : "language: ".toList.all isSpaceChar = false := by decide
  unfold toYaml
  simp only [String.toList_append, List.all_append, hname, Bool.false_and]

/-- A profile that was loaded is loaded again from its fields, and from its text if its tables need
no quotes. -/
theorem reloaded (l : Language) (p : Profile)
    (h : ∃ text, ofJson l text = .ok p ∨ ofYaml l text = .ok p) :
    p.language = l ∧ 1 ≤ p.preferredIndent ∧ 1 ≤ p.sourceTabStop ∧
      (Overrides.ofProfile p).apply (default l) = .ok p ∧
      (p.IsPlain →
        (Yaml.ofText? p.toYaml).bind Format.yaml.overrides? = some (Overrides.ofProfile p) ∧
        ofYaml l p.toYaml = .ok p) := by
  obtain ⟨text, h⟩ := h
  obtain ⟨o, ho, hload⟩ := exists_overrides h
  have hfits := Overrides.fits_of_apply hload ho (fits_default l)
  have hagain := Overrides.apply_ofProfile hload hfits
  have hlanguage : p.language = l :=
    (Overrides.apply_eq_ok_iff.1 hload).2.1.trans (default_language l)
  refine ⟨hlanguage, hfits.indent_pos, hfits.tabStop_pos, hagain, ?_⟩
  intro hplain
  have hread := overrides?_toYaml hfits hplain
  refine ⟨hread, ?_⟩
  rw [ofYaml, not_space_toYaml, if_neg Bool.false_ne_true, hread]
  exact hagain

/-- A profile with a narrow indentation and a class that is renamed by its dotted name. -/
def narrow : Profile :=
  { csharp with
    preferredIndent := 2
    typeRenames := csharp.typeRenames.insert "java.util.List" "IList" }

def narrowText : String :=
  "\x7b\"preferred_indent\": 2, \"type_renames\": \x7b\"java.util.List\": \"IList\"\x7d\x7d"

theorem reloaded_narrow : ofJson .csharp narrowText = .ok narrow ∧ narrow.IsPlain ∧
    ofYaml .csharp narrow.toYaml = .ok narrow := by
  have hread : (Json.ofText? narrowText).bind Format.json.overrides? = some
      { preferredIndent? := some 2, typeRenames := [("java.util.List", "IList")] } := by
    decide +kernel
  have hload : ofJson .csharp narrowText = .ok narrow := by
    rw [ofJson, hread]
    rfl
  have hplain : narrow.IsPlain := by
    unfold IsPlain
    decide +kernel
  exact ⟨hload, hplain, ((reloaded .csharp narrow ⟨narrowText, .inl hload⟩).2.2.2.2 hplain).2⟩

end Profile

end Transcribe.Target
