/-
  Transcribe.Data.Yaml.Node — the value that a text holds.

  A node is a scalar, with its style and its tag, or a mapping by the texts of its keys. An
  anchor names a node, and a reference stands for the node that was named. A text holds one
  document; one without any holds an empty plain scalar.

  The tokens are read from the head (`node?`), with the names given so far (`Anchors`) and what
  the handles of tags stand for (`Handles`). An entry of a block or between braces may have
  nothing at its key or its value, which is an empty plain scalar too.
  - `document?`: the first document of some tokens.
  - `ofText?`: a text with nothing behind its document.
-/

import Transcribe.Data.Yaml.Token

namespace Transcribe.Data

inductive Yaml where
  | scalar (style : Yaml.Style) (tag? : Option String) (text : String)
  | mapping (entries : List (String × Yaml))

namespace Yaml

def nothing : Yaml := .scalar .plain none ""

def text? : Yaml → Option String
  | .scalar _ _ text => some text
  | .mapping _ => none

/-! ## Anchors -/

/-- The nodes with names. A name has the number that the count of names was when it was given,
and the node is found by the number. -/
structure Anchors where
  numbers : List (String × Nat) := []
  nodes : List (Nat × Yaml) := []

namespace Anchors

def number (a : Anchors) : Nat := a.numbers.length

/-- Gives a name a number. It has no node until the node is complete. -/
def add (a : Anchors) (name : String) : Anchors where
  numbers := (name, a.number) :: a.numbers.filter (·.1 != name)
  nodes := a.nodes.filter (·.1 != a.number)

def set (a : Anchors) (number : Nat) (y : Yaml) : Anchors :=
  { a with nodes := (number, y) :: a.nodes.filter (·.1 != number) }

def find? (a : Anchors) (name : String) : Option Yaml :=
  (a.numbers.lookup name).bind (List.lookup · a.nodes)

end Anchors

/-! ## Properties -/

structure Properties where
  anchor? : Option String := none
  tag? : Option (String × String) := none

def Properties.isEmpty (p : Properties) : Bool := p.anchor?.isNone && p.tag?.isNone

def Properties.ofTokens : List Token → Properties × List Token
  | .anchor a :: .tag h s :: ts => ({ anchor? := some a, tag? := some (h, s) }, ts)
  | .tag h s :: .anchor a :: ts => ({ anchor? := some a, tag? := some (h, s) }, ts)
  | .anchor a :: ts => ({ anchor? := some a }, ts)
  | .tag h s :: ts => ({ tag? := some (h, s) }, ts)
  | ts => ({}, ts)

abbrev Handles := List (String × String)

def Handles.standard : Handles := [("!", "!"), ("!!", "tag:yaml.org,2002:")]

/-- The whole name of a tag. The inner option is empty where there is none. -/
def Handles.resolve? (handles : Handles) : Option (String × String) → Option (Option String)
  | none => some none
  | some (h, suffix) =>
    if h.isEmpty then some (some suffix) else (handles.lookup h).map fun m => some (m ++ suffix)

/-- A scalar that is written, with its tag. A lone exclamation mark says nothing about it. -/
def tagged (style : Style) (tag? : Option String) (text : String) : Yaml :=
  .scalar style (tag?.filter (· != "!")) text

/-! ## Nodes -/

structure Rest where
  anchors : Anchors := {}
  tokens : List Token

/-- Whether an entry of a block has nothing at its key or its value here. -/
def endsBlockPart : List Token → Bool
  | .key :: _ | .value :: _ | .blockEnd :: _ => true
  | _ => false

def endsFlowPart : List Token → Bool
  | .value :: _ | .comma :: _ | .flowEnd :: _ => true
  | _ => false

mutual

def node? (handles : Handles) : Nat → Bool → Rest → Option (Yaml × Rest)
  | 0, _, _ => none
  | n + 1, block, r =>
    match r.tokens with
    | .reference name :: ts => (r.anchors.find? name).map (·, { r with tokens := ts })
    | ts =>
      let (p, ts) := Properties.ofTokens ts
      match handles.resolve? p.tag? with
      | none => none
      | some tag? =>
        let number := r.anchors.number
        let anchors := match p.anchor? with
          | some name => r.anchors.add name
          | none => r.anchors
        let named (y : Yaml) (r : Rest) : Yaml × Rest :=
          (y, if p.anchor?.isSome then { r with anchors := r.anchors.set number y } else r)
        match ts with
        | .scalar style text :: ts => some (named (tagged style tag? text) ⟨anchors, ts⟩)
        | .flowStart :: ts =>
          (flowEntries? handles n true ⟨anchors, ts⟩).map fun e => named (.mapping e.1) e.2
        | .blockStart :: ts =>
          if block then
            (blockEntries? handles n ⟨anchors, ts⟩).map fun e => named (.mapping e.1) e.2
          else none
        | ts => if p.isEmpty then none else some (named (.scalar .plain tag? "") ⟨anchors, ts⟩)

def blockPart? (handles : Handles) : Nat → Rest → Option (Yaml × Rest)
  | 0, _ => none
  | n + 1, r => if endsBlockPart r.tokens then some (nothing, r) else node? handles n true r

def blockEntries? (handles : Handles) : Nat → Rest → Option (List (String × Yaml) × Rest)
  | 0, _ => none
  | n + 1, r =>
    match r.tokens with
    | .blockEnd :: ts => some ([], { r with tokens := ts })
    | .key :: ts => do
      let (key, r) ← blockPart? handles n { r with tokens := ts }
      let key ← key.text?
      let (value, r) ←
        match r.tokens with
        | .value :: ts => blockPart? handles n { r with tokens := ts }
        | _ => some (nothing, r)
      let (entries, r) ← blockEntries? handles n r
      return ((key, value) :: entries, r)
    | _ => none

def flowPart? (handles : Handles) : Nat → Rest → Option (Yaml × Rest)
  | 0, _ => none
  | n + 1, r => if endsFlowPart r.tokens then some (nothing, r) else node? handles n false r

/-- The entries between braces through the closing one; `first` if no comma is due. -/
def flowEntries? (handles : Handles) : Nat → Bool → Rest → Option (List (String × Yaml) × Rest)
  | 0, _, _ => none
  | n + 1, first, r =>
    match r.tokens with
    | .flowEnd :: ts => some ([], { r with tokens := ts })
    | .comma :: ts =>
      if first then none else flowEntries? handles n true { r with tokens := ts }
    | .key :: ts =>
      if !first then none
      else do
        let (key, r) ← flowPart? handles n { r with tokens := ts }
        let key ← key.text?
        let (value, r) ←
          match r.tokens with
          | .value :: ts => flowPart? handles n { r with tokens := ts }
          | _ => some (nothing, r)
        let (entries, r) ← flowEntries? handles n false r
        return ((key, value) :: entries, r)
    | _ =>
      if !first then none
      else do
        let (key, r) ← node? handles n false r
        let key ← key.text?
        let (entries, r) ← flowEntries? handles n false r
        return ((key, nothing) :: entries, r)

end

/-! ## Documents -/

/-- The handles that directives declare, with what follows them. The version can be given once. -/
def directives? : Bool → Handles → List Token → Option (Handles × List Token)
  | versioned, handles, .version major minor :: ts =>
    if versioned || major != 1 || (minor != 1 && minor != 2) then none
    else directives? true handles ts
  | versioned, handles, .handle name meaning :: ts =>
    if (handles.lookup name).isSome then none
    else directives? versioned ((name, meaning) :: handles) ts
  | _, handles, ts => some (handles, ts)

def endsDocument : List Token → Bool
  | [] | .documentStart :: _ | .documentEnd :: _ | .version _ _ :: _ | .handle _ _ :: _ => true
  | _ => false

/-- The node of the first document, and the tokens behind it. Every call on a way down reads a
token or is made by one that has just read one. -/
def document? (tokens : List Token) : Option (Yaml × List Token) :=
  let fuel := 2 * tokens.length + 2
  match tokens with
  | [] => some (nothing, [])
  | .documentStart :: _ | .version _ _ :: _ | .handle _ _ :: _ =>
    match directives? false [] tokens with
    | some (handles, .documentStart :: ts) =>
      if endsDocument ts then some (nothing, ts)
      else (node? (handles ++ Handles.standard) fuel true { tokens := ts }).map
        fun r => (r.1, r.2.tokens)
    | _ => none
  | _ => (node? Handles.standard fuel true { tokens := tokens }).map fun r => (r.1, r.2.tokens)

/-- The value a text holds. Nothing follows its document but marks of its end. -/
def ofText? (text : String) : Option Yaml := do
  let tokens ← Token.ofText? text
  let (y, rest) ← document? tokens
  if rest.all (· == .documentEnd) then return y else none

end Yaml

end Transcribe.Data
