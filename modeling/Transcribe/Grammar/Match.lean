/-
  Transcribe.Grammar.Match — matching a parsing expression against a text.

  A match gives the derivation: a tree of rules, with the words and the comments passed on the
  way as leaves. Lookaheads leave nothing in it. The record of attempts is kept on success and
  on failure alike.

  The mode says whether a match is inside a token, where no gap is passed and no words are
  kept, and inside which lookahead. Further repetitions (`more`) each pass a gap first, and a gap
  that no repetition follows is given back.
  - `run` is bounded by fuel, and `none` means that the fuel ran out.
  - `fuel` is enough for a grammar without left recursion: at one offset no rule is entered
    twice, so a path of the recursion visits each node of each rule at most once per offset.
-/

import Transcribe.Grammar.Attempts
import Transcribe.Grammar.Peg

namespace Transcribe.Grammar

open Text (Span byteLength)

variable {ρ : Type}

/-- A derivation. Token rules have no parts. -/
inductive Derivation (ρ : Type) where
  | node (rule : ρ) (span : Span) (parts : List (Derivation ρ))
  | word (span : Span)
  | comment (span : Span)

inductive Outcome (ρ : Type) where
  | matched (trees : List (Derivation ρ)) (next : Cursor) (attempts : Attempts ρ)
  | failed (attempts : Attempts ρ)

def afterWord? : List Char → List Char → Option (List Char)
  | [], cs => some cs
  | _ :: _, [] => none
  | w :: ws, c :: cs => if w == c then afterWord? ws cs else none

def firstWord? (ws : List (List Char)) (cs : List Char) : Option (List Char) :=
  ws.find? fun w => w.isPrefixOf cs

namespace Mode

def gap (m : Mode) (c : Cursor) : List Span × Cursor :=
  if m.token then ([], c) else Grammar.gap c

def gapLeaves (m : Mode) (c : Cursor) : List (Derivation ρ) := (m.gap c).1.map .comment

def leaf (m : Mode) (s : Span) : List (Derivation ρ) := if m.token then [] else [.word s]

end Mode

def takeWord (m : Mode) (w : List Char) (c : Cursor) (a : Attempts ρ) : Outcome ρ :=
  match afterWord? w c.rest with
  | some rest =>
    .matched (m.leaf ⟨c.offset, c.offset + byteLength w⟩) ⟨c.offset + byteLength w, rest⟩ a
  | none => .failed a

mutual

def run (g : Rules ρ) : Nat → Peg ρ → Mode → Cursor → Attempts ρ → Option (Outcome ρ)
  | 0, _, _, _, _ => none
  | n + 1, e, m, c, a =>
    match e with
    | .word w => some (takeWord m w c a)
    | .words ws =>
      match firstWord? ws c.rest with
      | some w => some (takeWord m w c a)
      | none => some (.failed a)
    | .one p =>
      match c.rest with
      | [] => some (.failed a)
      | ch :: rest =>
        if p ch then
          let stop := c.offset + ch.utf8Size
          some (.matched (m.leaf ⟨c.offset, stop⟩) ⟨stop, rest⟩ a)
        else some (.failed a)
    | .startOfText => some (if c.offset = 0 then .matched [] c a else .failed a)
    | .endOfText => some (if c.rest.isEmpty then .matched [] c a else .failed a)
    | .rule r =>
      let k := a.mark c.offset
      let inner := if g.kind r = .token then { m with token := true } else m
      match run g n (g.body r) inner c a with
      | none => none
      | some (.failed a) =>
        some (.failed (if m.look = .negative then a else a.note m r c.offset k))
      | some (.matched parts next a) =>
        some (.matched (if m.token then [] else [.node r ⟨c.offset, next.offset⟩ parts]) next
          (if m.look = .negative then a.note m r c.offset k else a))
    | .seq x y =>
      match run g n x m c a with
      | none => none
      | some (.failed a) => some (.failed a)
      | some (.matched before next a) =>
        match run g n y m (m.gap next).2 a with
        | none => none
        | some (.failed a) => some (.failed a)
        | some (.matched behind next' a) =>
          some (.matched (before ++ m.gapLeaves next ++ behind) next' a)
    | .alt x y =>
      match run g n x m c a with
      | none => none
      | some (.failed a) => run g n y m c a
      | some (.matched trees next a) => some (.matched trees next a)
    | .opt x =>
      match run g n x m c a with
      | none => none
      | some (.failed a) => some (.matched [] c a)
      | some (.matched trees next a) => some (.matched trees next a)
    | .many x =>
      match run g n x m c a with
      | none => none
      | some (.failed a) => some (.matched [] c a)
      | some (.matched first next a) =>
        match more g n x m next a with
        | none => none
        | some (others, next', a) => some (.matched (first ++ others) next' a)
    | .ahead x =>
      match run g n x { m with look := m.look.ahead } c a with
      | none => none
      | some (.failed a) => some (.failed a)
      | some (.matched _ _ a) => some (.matched [] c a)
    | .notAhead x =>
      match run g n x { m with look := m.look.notAhead } c a with
      | none => none
      | some (.failed a) => some (.matched [] c a)
      | some (.matched _ _ a) => some (.failed a)

/-- Further repetitions of `x`, each behind a gap. A gap that no repetition follows is given
back. -/
def more (g : Rules ρ) :
    Nat → Peg ρ → Mode → Cursor → Attempts ρ → Option (List (Derivation ρ) × Cursor × Attempts ρ)
  | 0, _, _, _, _ => none
  | n + 1, x, m, c, a =>
    match run g n x m (m.gap c).2 a with
    | none => none
    | some (.failed a) => some ([], c, a)
    | some (.matched trees next a) =>
      match more g n x m next a with
      | none => none
      | some (others, next', a) => some (m.gapLeaves c ++ trees ++ others, next', a)

end

namespace Rules

/-- Nodes of all rules together, the rules themselves and their repetitions counted. -/
def weight (g : Rules ρ) : Nat := g.all.foldr (fun r n => (g.body r).size + 2 + n) 0

def fuel (g : Rules ρ) (n : Nat) : Nat := g.weight * (n + 2)

def match? (g : Rules ρ) (r : ρ) (cs : List Char) : Option (Outcome ρ) :=
  run g (g.fuel cs.length) (.rule r) ⟨false, .none⟩ ⟨0, cs⟩ .start

end Rules

end Transcribe.Grammar
