/-
  Transcribe.Proofs.Reload.Node — the nodes that the tokens of fields are read as.

  Tokens read as a node if a part of a block that starts with them is that node and leaves what
  stands behind them, with more calls to spare than there are tokens.
  - `blockEntries?_flatMap`: entries whose values read as nodes read as a mapping.
  - `ofText?_fieldsChars`: the text of fields holds their nodes by name.
-/

import Transcribe.Data.Yaml.Node
import Transcribe.Proofs.Reload.Written

namespace Transcribe.Data.Yaml

def plain (text : String) : Yaml := .scalar .plain none text

def Field.node : Field → Yaml
  | .text value => plain value
  | .table entries => .mapping (entries.map fun e => (e.1, plain e.2))

/-- Whether tokens are read as a node that is a part of a block, whatever stands behind them. Every
call on the way down has read one of them. -/
def Reads (handles : Handles) (ts : List Token) (y : Yaml) : Prop :=
  ∀ n a rest, ts.length < n → blockPart? handles n ⟨a, ts ++ rest⟩ = some (y, ⟨a, rest⟩)

theorem reads_plain (handles : Handles) (text : String) :
    Reads handles [.scalar .plain text] (plain text) := by
  intro n a rest hn
  obtain ⟨m, rfl⟩ : ∃ m, n = m + 2 := ⟨n - 2, by simp at hn; omega⟩
  rfl

theorem reads_braces (handles : Handles) : Reads handles [.flowStart, .flowEnd] (.mapping []) := by
  intro n a rest hn
  obtain ⟨m, rfl⟩ : ∃ m, n = m + 3 := ⟨n - 3, by simp at hn; omega⟩
  rfl

@[simp] theorem length_entryTokens (key : String) (value : List Token) :
    (entryTokens key value).length = value.length + 3 := rfl

theorem entryTokens_append (key : String) (value rest : List Token) :
    entryTokens key value ++ rest
      = .key :: .scalar .plain key :: .value :: (value ++ rest) := rfl

/-- The entries of a block to its end. -/
theorem blockEntries?_flatMap {α : Type} {handles : Handles} (tokens : α → List Token)
    (node : α → Yaml) {es : List (String × α)} (h : ∀ e ∈ es, Reads handles (tokens e.2) (node e.2))
    {n : Nat} (a : Anchors) (rest : List Token)
    (hn : (es.flatMap fun e => entryTokens e.1 (tokens e.2)).length < n) :
    blockEntries? handles n
        ⟨a, (es.flatMap fun e => entryTokens e.1 (tokens e.2)) ++ .blockEnd :: rest⟩
      = some (es.map fun e => (e.1, node e.2), ⟨a, rest⟩) := by
  induction es generalizing n with
  | nil =>
    obtain ⟨m, rfl⟩ : ∃ m, n = m + 1 := ⟨n - 1, by omega⟩
    rfl
  | cons e es ih =>
    rw [List.flatMap_cons, List.length_append, length_entryTokens] at hn
    obtain ⟨m, rfl⟩ : ∃ m, n = m + 1 := ⟨n - 1, by omega⟩
    generalize hbehind :
      (es.flatMap fun e => entryTokens e.1 (tokens e.2)) ++ .blockEnd :: rest = behind at ih
    have hkey : blockPart? handles m ⟨a, .scalar .plain e.1 :: .value :: (tokens e.2 ++ behind)⟩
        = some (plain e.1, ⟨a, .value :: (tokens e.2 ++ behind)⟩) :=
      reads_plain handles e.1 m a _ (by simp only [List.length_singleton]; omega)
    have hvalue : blockPart? handles m ⟨a, tokens e.2 ++ behind⟩ = some (node e.2, ⟨a, behind⟩) :=
      h e List.mem_cons_self m a _ (by omega)
    have hrest : blockEntries? handles m ⟨a, behind⟩
        = some (es.map fun e => (e.1, node e.2), ⟨a, rest⟩) :=
      ih (fun d hd => h d (List.mem_cons_of_mem e hd)) (by omega)
    rw [List.flatMap_cons, List.append_assoc, hbehind, entryTokens_append, blockEntries?]
    simp [hkey, hvalue, hrest, plain, text?]

/-- The tokens of a field are read as its node. -/
theorem reads_field (handles : Handles) (f : Field) : Reads handles f.tokens f.node := by
  match f with
  | .text value => exact reads_plain handles value
  | .table [] => exact reads_braces handles
  | .table (e :: es) =>
    intro n a rest hn
    have hlength : (tableTokens (e :: es)).length + 2 < n := by
      simpa [Field.tokens] using hn
    obtain ⟨m, rfl⟩ : ∃ m, n = m + 2 := ⟨n - 2, by omega⟩
    have hentries : blockEntries? handles m ⟨a, tableTokens (e :: es) ++ .blockEnd :: rest⟩
        = some ((e :: es).map fun d => (d.1, plain d.2), ⟨a, rest⟩) :=
      blockEntries?_flatMap (fun text => [.scalar .plain text]) plain
        (fun d _ => reads_plain handles d.2) a rest (Nat.lt_of_add_lt_add_right hlength)
    simp [Field.tokens, blockPart?, endsBlockPart, node?, Properties.ofTokens, Handles.resolve?,
      hentries, Field.node]

/-- A text of fields below each other holds their nodes by name. -/
theorem ofText?_fieldsChars {e : String × Field} {fields : List (String × Field)}
    (h : ∀ d ∈ e :: fields, IsFlatField d) :
    ofText? (String.ofList (fieldsChars (e :: fields)))
      = some (.mapping ((e :: fields).map fun d => (d.1, d.2.node))) := by
  have hentries : blockEntries? Handles.standard (2 * (fieldsTokens (e :: fields)).length + 5)
        ⟨{}, fieldsTokens (e :: fields) ++ [Token.blockEnd]⟩
      = some ((e :: fields).map fun d => (d.1, d.2.node), ⟨{}, []⟩) :=
    blockEntries?_flatMap Field.tokens Field.node (fun d _ => reads_field _ d.2) {} []
      (by rw [← fieldsTokens]; omega)
  have hfuel : 2 * (.blockStart :: (fieldsTokens (e :: fields) ++ [Token.blockEnd])).length + 2
      = 2 * (fieldsTokens (e :: fields)).length + 5 + 1 := by
    simp only [List.length_cons, List.length_append, List.length_nil]
    omega
  have hdocument : document? (.blockStart :: (fieldsTokens (e :: fields) ++ [Token.blockEnd]))
      = some (.mapping ((e :: fields).map fun d => (d.1, d.2.node)), []) := by
    simp only [document?, hfuel]
    simp [node?, Properties.ofTokens, Handles.resolve?, hentries]
  simp [ofText?, Token.ofText?_fields h, hdocument]

end Transcribe.Data.Yaml
