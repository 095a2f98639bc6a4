/-
  Transcribe.Proofs.Word — keywords and identifiers share the words of a text between them.

  At every place of a text stands a run of identifier characters, as long as it can be and maybe
  empty. A rule for words takes all of it or nothing: it tries its words in the order of their list,
  keeps to the first that stands there, and looks one character ahead. It would miss a word behind
  one the word begins with, so in every list a word comes before its own beginnings.

  `runAt` is the run at a place. The words of a list are `Listed` if all are reserved and in such an
  order; every rule that is for words of its own (`Rule.ownWords?`) has such a list. An identifier
  is any other run that begins with no digit. `Rule.TakesRunIff` puts a search in terms of the run:
  it always finishes, in a tree and in a token and under every lookahead, and takes the run just if
  a condition on the run holds.
  - `parses_wholeWord`, `parses_noWord`: with its words in such an order, a rule takes the run if
    it is one of them.
  - `parses_identifier`: an identifier is a run that is not reserved and begins with no digit.
  - `words_shared`: what every search for such a rule comes to, at every place.
-/

import Transcribe.Proofs.Total.Finish
import Transcribe.Proofs.Total.Meaning

namespace Transcribe.Java

open Grammar
open Text (byteLength)

/-! ## The run at a place -/

def runAt (c : Cursor) : List Char := c.rest.takeWhile isIdentChar

def behindRun (c : Cursor) : Cursor :=
  ⟨c.offset + byteLength (runAt c), c.rest.dropWhile isIdentChar⟩

theorem runAt_append (c : Cursor) : c.rest = runAt c ++ (behindRun c).rest :=
  List.takeWhile_append_dropWhile.symm

theorem reaches_behindRun (c : Cursor) : c.Reaches (runAt c) (behindRun c) :=
  ⟨runAt_append c, rfl⟩

theorem isIdentChar_of_mem_runAt {c : Cursor} {ch : Char} (h : ch ∈ runAt c) :
    isIdentChar ch = true :=
  List.all_eq_true.1 List.all_takeWhile ch h

/-- No identifier character stands behind the run. -/
theorem head_behindRun (c : Cursor) : ∀ ch ∈ (behindRun c).rest.head?, isIdentChar ch = false := by
  intro ch hch
  have hnot := List.head?_dropWhile_not isIdentChar c.rest
  have hdrop : (c.rest.dropWhile isIdentChar).head? = some ch := hch
  rw [hdrop] at hnot
  simpa using hnot

theorem runAt_cons {o : Nat} {ch : Char} {cs : List Char} (h : isIdentChar ch = true) :
    runAt ⟨o, ch :: cs⟩ = ch :: runAt ⟨o + byteLength [ch], cs⟩ :=
  List.takeWhile_cons_of_pos h

theorem behindRun_cons {o : Nat} {ch : Char} {cs : List Char} (h : isIdentChar ch = true) :
    behindRun ⟨o, ch :: cs⟩ = behindRun ⟨o + byteLength [ch], cs⟩ := by
  simp only [behindRun, runAt_cons h, List.dropWhile_cons_of_pos h, Text.byteLength_cons,
    Text.byteLength_nil, Nat.add_zero, Nat.add_assoc]

/-- A place that no identifier character follows has an empty run. -/
theorem behindRun_eq_self {c : Cursor} (h : ∀ ch ∈ c.rest.head?, isIdentChar ch = false) :
    behindRun c = c := by
  obtain ⟨o, cs⟩ := c
  cases cs with
  | nil => rfl
  | cons ch cs =>
    have hch : ¬ isIdentChar ch = true := by simp [h ch rfl]
    simp only [behindRun, runAt, List.takeWhile_cons_of_neg hch, List.dropWhile_cons_of_neg hch,
      Text.byteLength_nil, Nat.add_zero]

/-- A word that stands at a place is a beginning of the run there. -/
theorem prefix_runAt {c : Cursor} {w : List Char} (hw : ∀ ch ∈ w, isIdentChar ch = true)
    (h : w <+: c.rest) : w <+: runAt c := by
  obtain ⟨rest, hrest⟩ := h
  rw [runAt, ← hrest, List.takeWhile_append_of_pos hw]
  exact List.prefix_append w _

/-! ## Words of a list -/

def Begins (w : List Char) : Prop := w ≠ [] ∧ ∀ ch ∈ w.head?, ch.isDigit = false

structure Listed (ws : List String) : Prop where
  chars : ∀ t ∈ ws, ∀ ch ∈ t.toList, isIdentChar ch = true
  order : ws.Pairwise fun u v => ¬ u.toList <+: v.toList
  reserved : ∀ t ∈ ws, t ∈ reservedWords
  begins : ∀ t ∈ ws, Begins t.toList

/-- Nothing stands between the parts of a token. -/
theorem between_token (c : Cursor) : Between true c [] c := ⟨rfl, rfl⟩

/-- What a rule for whole words comes to where the run is one of them. -/
theorem parses_wholeWord {ws : List String} (hws : Listed ws) {c : Cursor}
    (h : String.ofList (runAt c) ∈ ws) :
    Parses Rule.grammar true (.once (Rule.wholeWord ws)) c (some ([], behindRun c)) := by
  obtain ⟨before, behind, rfl⟩ := List.append_of_mem h
  have hbefore : ∀ v ∈ before.map String.toList, ¬ v <+: c.rest := by
    intro v hv hstands
    obtain ⟨u, hu, rfl⟩ := List.mem_map.1 hv
    have horder := (List.pairwise_append.1 hws.order).2.2 u hu _ List.mem_cons_self
    rw [String.toList_ofList] at horder
    exact horder (prefix_runAt (hws.chars u (List.mem_append_left _ hu)) hstands)
  have hword : Parses Rule.grammar true
      (.once (Peg.oneOf (before ++ String.ofList (runAt c) :: behind))) c
      (some ([], behindRun c)) :=
    .words (by rw [List.map_append, List.map_cons, String.toList_ofList]) hbefore (runAt_append c)
  exact .seq hword (between_token _) (.notAhead (.noOne (head_behindRun c)))

/-- What it comes to where the run is none of them: the run goes on behind a word that stands
there. -/
theorem parses_noWord {ws : List String} (hws : Listed ws) {c : Cursor}
    (h : String.ofList (runAt c) ∉ ws) :
    Parses Rule.grammar true (.once (Rule.wholeWord ws)) c none := by
  cases hfirst : firstWord? (ws.map String.toList) c.rest with
  | none =>
    refine .noFirst (.noWords fun w hw hstands => ?_)
    exact List.find?_eq_none.1 hfirst w hw (List.isPrefixOf_iff_prefix.2 hstands)
  | some w =>
    have hword := parses_words (g := Rule.grammar) (m := ⟨true, .none⟩) (a := .start) hfirst
    unfold firstWord? at hfirst
    obtain ⟨t, ht, rfl⟩ := List.mem_map.1 (List.mem_of_find?_eq_some hfirst)
    have hstands := List.find?_some hfirst
    obtain ⟨rest, hrest⟩ :=
      prefix_runAt (hws.chars t ht) (List.isPrefixOf_iff_prefix.1 hstands)
    cases rest with
    | nil =>
      rw [List.append_nil] at hrest
      rw [← hrest, String.ofList_toList] at h
      exact absurd ht h
    | cons ch rest =>
      have hch : isIdentChar ch = true := isIdentChar_of_mem_runAt (by rw [← hrest]; simp)
      have hc : c.rest = t.toList ++ (ch :: (rest ++ (behindRun c).rest)) := by
        rw [runAt_append c, ← hrest, List.append_assoc, List.cons_append]
      rw [takeWord, hc, afterWord?_append] at hword
      exact .noSecond hword (between_token _) (.noNotAhead (.one rfl hch))

/-! ## Identifiers -/

/-- An identifier begins with an identifier character that is no digit. -/
theorem isIdentStart_iff {ch : Char} :
    isIdentStart ch = true ↔ isIdentChar ch = true ∧ ch.isDigit = false := by
  have hdigit : ch.isAlpha = true → ch.isDigit = false := by
    intro h
    delta Char.isAlpha Char.isUpper Char.isLower at h
    delta Char.isDigit
    simp only [ge_iff_le, Bool.or_eq_true, decide_eq_true_eq, Bool.and_eq_true,
      Bool.and_eq_false_iff, decide_eq_false_iff_not, UInt32.le_iff_toNat_le] at h ⊢
    have hnine : '9'.val.toNat = 57 := rfl
    have hA : 'A'.val.toNat = 65 := rfl
    have ha : 'a'.val.toNat = 97 := rfl
    omega
  simp only [isIdentStart, isIdentChar, Char.isAlphanum, Bool.or_eq_true, beq_iff_eq]
  constructor
  · rintro ((h | rfl) | rfl)
    · exact ⟨.inl (.inl (.inl h)), hdigit h⟩
    · exact ⟨.inl (.inr rfl), rfl⟩
    · exact ⟨.inr rfl, rfl⟩
  · rintro ⟨((h | h) | h) | h, hno⟩
    · exact .inl (.inl h)
    · exact absurd h (by simp [hno])
    · exact .inl (.inr h)
    · exact .inr h

theorem parses_further (c : Cursor) :
    Parses Rule.grammar true (.further (.one isIdentChar)) c (some ([], behindRun c)) := by
  obtain ⟨o, cs⟩ := c
  induction cs generalizing o with
  | nil => exact .done (between_token _) (.noOne (by simp))
  | cons ch cs ih =>
    by_cases hch : isIdentChar ch = true
    · rw [behindRun_cons hch]
      exact .again (between_token _) (.one rfl hch) (ih _)
    · have hhead : ∀ x ∈ (ch :: cs).head?, isIdentChar x = false := by simpa using hch
      rw [behindRun_eq_self hhead]
      exact .done (between_token _) (.noOne hhead)

/-- A repetition goes to the end of the run. -/
theorem parses_many (c : Cursor) :
    Parses Rule.grammar true (.once (.many (.one isIdentChar))) c (some ([], behindRun c)) := by
  obtain ⟨o, cs⟩ := c
  cases cs with
  | nil => exact .never (.noOne (by simp))
  | cons ch cs =>
    by_cases hch : isIdentChar ch = true
    · rw [behindRun_cons hch]
      exact .many (.one rfl hch) (parses_further _)
    · have hhead : ∀ x ∈ (ch :: cs).head?, isIdentChar x = false := by simpa using hch
      rw [behindRun_eq_self hhead]
      exact .never (.noOne hhead)

theorem begins_runAt_iff {c : Cursor} :
    Begins (runAt c) ↔ ∃ ch ∈ c.rest.head?, isIdentStart ch = true := by
  have hhead : (runAt c).head? = c.rest.head?.filter isIdentChar := List.head?_takeWhile
  rw [Begins, ← List.isSome_head?, hhead]
  cases c.rest.head? with
  | none => simp
  | some ch =>
    rw [Option.filter_some]
    split
    · rename_i hch
      simp [isIdentStart_iff, hch]
    · rename_i hch
      simp [isIdentStart_iff, hch]

def IsIdentifier (w : List Char) : Prop := Begins w ∧ String.ofList w ∉ reservedWords

/-! ## The rules for words -/

def Rule.ownWords? : Rule → Option (List String)
  | .keyword => some reservedWords
  | .kwPackage => some ["package"]
  | .kwImport => some ["import"]
  | .kwClass => some ["class"]
  | .kwInterface => some ["interface"]
  | .kwExtends => some ["extends"]
  | .kwImplements => some ["implements"]
  | .kwThrows => some ["throws"]
  | .kwIf => some ["if"]
  | .kwElse => some ["else"]
  | .kwWhile => some ["while"]
  | .kwDo => some ["do"]
  | .kwFor => some ["for"]
  | .kwReturn => some ["return"]
  | .kwBreak => some ["break"]
  | .kwContinue => some ["continue"]
  | .kwThrow => some ["throw"]
  | .kwNew => some ["new"]
  | .kwInstanceof => some ["instanceof"]
  | .importStatic => some ["static"]
  | .modifier => some modifierWords
  | .primitiveType => some primitiveWords
  | .voidType => some ["void"]
  | .thisExpression => some ["this"]
  | .booleanLiteral => some ["true", "false"]
  | .nullLiteral => some ["null"]
  | _ => none

theorem Rule.body_of_ownWords? {r : Rule} {ws : List String} (h : r.ownWords? = some ws) :
    r.body = wholeWord ws ∧ r.kind = .token := by
  unfold ownWords? at h
  split at h <;> cases h <;> exact ⟨rfl, rfl⟩

/-- Reserved words are runs of identifier characters that begin with no digit. -/
theorem reserved_spelled : ∀ t ∈ reservedWords,
    t.toList.all isIdentChar = true ∧ (t.toList.head?.any fun ch => !ch.isDigit) = true := by decide

theorem begins_of_any {w : List Char} (h : (w.head?.any fun ch => !ch.isDigit) = true) :
    Begins w := by
  cases w with
  | nil => cases h
  | cons ch w =>
    refine ⟨List.cons_ne_nil ch w, fun x hx => ?_⟩
    cases hx
    simpa using h

theorem listed_of_ownWords? {r : Rule} {ws : List String} (h : r.ownWords? = some ws) :
    Listed ws := by
  have hlist : (ws.Pairwise fun u v => ¬ u.toList <+: v.toList) ∧ ∀ t ∈ ws, t ∈ reservedWords := by
    unfold Rule.ownWords? at h
    split at h <;> cases h <;> decide
  obtain ⟨horder, hreserved⟩ := hlist
  exact {
    chars := fun t ht => List.all_eq_true.1 (reserved_spelled t (hreserved t ht)).1
    order := horder
    reserved := hreserved
    begins := fun t ht => begins_of_any (reserved_spelled t (hreserved t ht)).2 }

theorem listed_reservedWords : Listed reservedWords := listed_of_ownWords? (r := .keyword) rfl

theorem parses_identifier {c : Cursor} (h : IsIdentifier (runAt c)) :
    Parses Rule.grammar true (.once (Rule.body .identifier)) c (some ([], behindRun c)) := by
  have hkeyword := parses_noWord listed_reservedWords h.2
  obtain ⟨ch, hch, hstart⟩ := begins_runAt_iff.1 h.1
  obtain ⟨o, cs⟩ := c
  cases cs with
  | nil => cases hch
  | cons x cs =>
    cases hch
    rw [behindRun_cons (isIdentStart_iff.1 hstart).1]
    exact .seq (.notAhead (.noRule hkeyword)) (between_token _)
      (.seq (.one rfl hstart) (between_token _) (parses_many _))

theorem parses_noIdentifier {c : Cursor} (h : ¬ IsIdentifier (runAt c)) :
    Parses Rule.grammar true (.once (Rule.body .identifier)) c none := by
  by_cases hreserved : String.ofList (runAt c) ∈ reservedWords
  · exact .noFirst (.noNotAhead (.rule (parses_wholeWord listed_reservedWords hreserved)))
  · have hhead : ∀ ch ∈ c.rest.head?, isIdentStart ch = false := by
      intro ch hch
      rw [Bool.eq_false_iff]
      intro hstart
      exact h ⟨begins_runAt_iff.2 ⟨ch, hch, hstart⟩, hreserved⟩
    have hkeyword := parses_noWord listed_reservedWords hreserved
    exact .noSecond (.notAhead (.noRule hkeyword)) (between_token _) (.noFirst (.noOne hhead))

/-- Every search for the rule at `c` finishes; it takes the run there if `p` and fails otherwise,
in a tree and in a token, and under every lookahead. -/
structure Rule.TakesRunIff (r : Rule) (c : Cursor) (p : Prop) : Prop where
  finishes {n m a} (hn : grammar.fuel c.rest.length ≤ n) :
    ∃ out, run grammar n (.rule r) m c a = some out
  takes {n m a out} (hp : p) (h : run grammar n (.rule r) m c a = some out) :
    ∃ d, c.Reaches (runAt c) d ∧
      out.answer = some (if m.token then [] else [.node r ⟨c.offset, d.offset⟩ []], d)
  fails {n m a out} (hp : ¬ p) (h : run grammar n (.rule r) m c a = some out) :
    out.answer = none

theorem Rule.takesRunIff_of_parses {r : Rule} {c : Cursor} {p : Prop} (hkind : r.kind = .token)
    (hyes : p → Parses grammar true (.once r.body) c (some ([], behindRun c)))
    (hno : ¬ p → Parses grammar true (.once r.body) c none) : r.TakesRunIff c p where
  finishes hn := run_grammar r hn
  takes {n m a out} hp h := by
    refine ⟨behindRun c, reaches_behindRun c, (parses_of_run h).unique (.rule ?_)⟩
    have htoken : (m.token || grammar.kind r == .token) = true := by simp [grammar, hkind]
    rw [htoken]
    exact hyes hp
  fails {n m a out} hp h := by
    refine (parses_of_run h).unique (.noRule ?_)
    have htoken : (m.token || grammar.kind r == .token) = true := by simp [grammar, hkind]
    rw [htoken]
    exact hno hp

/-- Keywords and identifiers share the words of a text between them: at every place the identifier
rule takes the run if it begins with no digit and is not reserved, and each rule for words takes it
if it is one of its own. All of these are reserved, and a run that is not empty and begins with no
digit is an identifier or reserved, as is no other run. -/
theorem words_shared (c : Cursor) :
    Rule.identifier.TakesRunIff c (IsIdentifier (runAt c)) ∧
    (∀ (r : Rule) (ws : List String), r.ownWords? = some ws →
      r.TakesRunIff c (String.ofList (runAt c) ∈ ws) ∧ ∀ t ∈ ws, t ∈ reservedWords) ∧
    (Begins (runAt c) ↔ IsIdentifier (runAt c) ∨ String.ofList (runAt c) ∈ reservedWords) := by
  refine ⟨Rule.takesRunIff_of_parses rfl parses_identifier parses_noIdentifier, ?_, ?_⟩
  · intro r ws h
    obtain ⟨hbody, hkind⟩ := Rule.body_of_ownWords? h
    have hlisted := listed_of_ownWords? h
    refine ⟨Rule.takesRunIff_of_parses hkind ?_ ?_, hlisted.reserved⟩
    · rw [hbody]
      exact parses_wholeWord hlisted
    · rw [hbody]
      exact parses_noWord hlisted
  · constructor
    · intro h
      by_cases hreserved : String.ofList (runAt c) ∈ reservedWords
      · exact .inr hreserved
      · exact .inl ⟨h, hreserved⟩
    · rintro (h | h)
      · exact h.1
      · have hbegins := listed_reservedWords.begins _ h
        rwa [String.toList_ofList] at hbegins

/-- In front of `throws` the rule for `throw` fails, and there is no identifier. -/
theorem words_shared_throws :
    Rule.kwThrows.TakesRunIff ⟨3, "throws X".toList⟩ True ∧
    Rule.kwThrow.TakesRunIff ⟨3, "throws X".toList⟩ False ∧
    Rule.identifier.TakesRunIff ⟨3, "throws X".toList⟩ False := by
  obtain ⟨hidentifier, hwords, -⟩ := words_shared ⟨3, "throws X".toList⟩
  have hrun : String.ofList (runAt ⟨3, "throws X".toList⟩) = "throws" := by decide
  have hthrows := (hwords .kwThrows _ rfl).1
  have hthrow := (hwords .kwThrow _ rfl).1
  rw [IsIdentifier, hrun] at hidentifier
  rw [hrun] at hthrows hthrow
  refine ⟨by simpa using hthrows, by simpa using hthrow, ?_⟩
  have hreserved : "throws" ∈ reservedWords := by decide
  simpa [hreserved] using hidentifier

end Transcribe.Java
