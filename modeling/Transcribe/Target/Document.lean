/-
  Transcribe.Target.Document — profiles as JSON and YAML documents.

  A document gives overrides by name, or all of them in order. Both formats are read by the
  same rules; they differ in what a value of the format can be read as.
  - `Profile.ofJson`, `Profile.ofYaml`: the profile a text describes for a language.
  - `Profile.toYaml`: a profile as a text.
-/

import Transcribe.Data.Json.Reader
import Transcribe.Data.Yaml.Value
import Transcribe.Data.Yaml.Writer
import Transcribe.Target.Overrides

namespace Transcribe.Target

open Data (Json Yaml)

/-- What the values of a format can be read as. -/
structure Format (α : Type) where
  isNull : α → Bool
  nat? : α → Option Nat
  bool? : α → Option Bool
  text? : α → Option String
  /-- One word of a fixed set. -/
  word? : α → Option String
  items? : α → Option (List α)
  entries? : α → Option (List (String × α))

namespace Format

variable {α : Type} (f : Format α)

def optional {β : Type} (read : α → Option β) (a : α) : Option (Option β) :=
  if f.isNull a then some none else (read a).map some

def language? : α → Option (Option Language) :=
  f.optional fun a => (f.word? a).bind Language.ofWord?

def pointerStyle? : α → Option (Option PointerStyle) :=
  f.optional fun a => (f.word? a).bind PointerStyle.ofWord?

def length? : α → Option (Option Nat) :=
  f.optional fun a => (f.nat? a).bind fun n => if n < Nat.pow 2 64 then some n else none

def flag? : α → Option (Option Bool) := f.optional f.bool?

def table? (a : α) : Option (List (String × String)) := do
  let entries ← f.entries? a
  entries.mapM fun e => (f.text? e.2).map (e.1, ·)

def names : List String :=
  ["language", "pointer_style", "preferred_indent", "source_tab_stop", "expand_tabs",
   "primitive_types", "type_renames"]

def set? (o : Overrides) (name : String) (a : α) : Option Overrides :=
  match name with
  | "language" => (f.language? a).map fun v => { o with language? := v }
  | "pointer_style" => (f.pointerStyle? a).map fun v => { o with pointerStyle? := v }
  | "preferred_indent" => (f.length? a).map fun v => { o with preferredIndent? := v }
  | "source_tab_stop" => (f.length? a).map fun v => { o with sourceTabStop? := v }
  | "expand_tabs" => (f.flag? a).map fun v => { o with expandTabs? := v }
  | "primitive_types" => (f.table? a).map fun v => { o with primitiveTypes := v }
  | "type_renames" => (f.table? a).map fun v => { o with typeRenames := v }
  | _ => none

def setAll? (o : Overrides) (fields : List (String × α)) : Option Overrides :=
  fields.foldlM (fun o e => f.set? o e.1 e.2) o

/-- Overrides by name, no name twice; or all in order, of which the tables may be missing. -/
def overrides? (a : α) : Option Overrides :=
  match f.entries? a with
  | some entries =>
    if (entries.map (·.1)).Nodup then f.setAll? {} entries else none
  | none =>
    match f.items? a with
    | some items =>
      if 5 ≤ items.length ∧ items.length ≤ 7 then f.setAll? {} (names.zip items) else none
    | none => none

end Format

/-! ## JSON -/

def jsonNat? : Json → Option Nat
  | .number t => if Json.areDigits t.toList then Data.ofDigits? 10 t.toList else none
  | _ => none

/-- A word, alone or as the only key of an object with nothing in it. -/
def jsonWord? : Json → Option String
  | .str s => some s
  | .obj [(k, .null)] => some k
  | _ => none

def Format.json : Format Json where
  isNull
    | .null => true
    | _ => false
  nat? := jsonNat?
  bool?
    | .bool b => some b
    | _ => none
  text?
    | .str s => some s
    | _ => none
  word? := jsonWord?
  items?
    | .arr items => some items
    | _ => none
  entries?
    | .obj members => some members
    | _ => none

/-! ## YAML -/

/-- A list of settings without names is no document here. -/
def Format.yaml : Format Yaml where
  isNull := Yaml.isNull
  nat? := Yaml.nat?
  bool? := Yaml.bool?
  text? := Yaml.text?
  word? := Yaml.word?
  items? _ := none
  entries? := Yaml.entries?

def isSpaceChar (c : Char) : Bool :=
  (0x09 ≤ c.toNat && c.toNat ≤ 0x0d) || (0x2000 ≤ c.toNat && c.toNat ≤ 0x200a)
    || [0x20, 0x85, 0xa0, 0x1680, 0x2028, 0x2029, 0x202f, 0x205f, 0x3000].contains c.toNat

namespace Profile

def ofOverrides (l : Language) : Option Overrides → Except ProfileError Profile
  | some o => o.apply (default l)
  | none => .error .unreadable

def ofJsonValue (l : Language) (j : Json) : Except ProfileError Profile :=
  ofOverrides l (Format.json.overrides? j)

def ofJson (l : Language) (text : String) : Except ProfileError Profile :=
  ofOverrides l ((Json.ofText? text).bind Format.json.overrides?)

/-- A text of space only changes nothing. -/
def ofYaml (l : Language) (text : String) : Except ProfileError Profile :=
  if text.toList.all isSpaceChar then ofOverrides l (some {})
  else ofOverrides l ((Yaml.ofText? text).bind Format.yaml.overrides?)

/-! ## Writing -/

def tableYaml (name : String) (t : Table) : String :=
  if t.entries.isEmpty then name ++ ": \x7b\x7d\n"
  else name ++ ":\n" ++ String.join (t.entries.map fun e => Yaml.entryText e.1 e.2)

def tableTexts (t : Table) : List String := t.entries.flatMap fun e => [e.1, e.2]

/-- A mark closes a text that ends in empty lines. -/
def toYaml (p : Profile) : String :=
  "language: " ++ p.language.word ++ "\n"
    ++ "pointer_style: " ++ p.pointerStyle.word ++ "\n"
    ++ "preferred_indent: " ++ toString p.preferredIndent ++ "\n"
    ++ "source_tab_stop: " ++ toString p.sourceTabStop ++ "\n"
    ++ "expand_tabs: " ++ (if p.expandTabs then "true" else "false") ++ "\n"
    ++ tableYaml "primitive_types" p.primitiveTypes
    ++ tableYaml "type_renames" p.typeRenames
    ++ (if Yaml.isOpenEnded (tableTexts p.primitiveTypes ++ tableTexts p.typeRenames) then "...\n"
      else "")

end Profile

end Transcribe.Target
