/-
  Transcribe.Proofs.Reload.Lexer — the steps of the lexer over keys, values and marks.

  A step goes from the start of one token to the start of the next: it reads the token, passes the
  gap behind it and closes the blocks that the new column leaves. Every state here stands outside of
  braces, but for the one between a pair of them; it is given by the place, the tokens so far, the
  columns of the open blocks and whether a key may start. What a deeper column opens and what a
  lesser one closes is told by the list of columns alone (`opened`, `closing`, `kept`).
  - `proceed?_of_steps`: steps to the end of a text give its tokens.
  - `step_key`, `step_colon`: a key turns into one at its colon.
  - `step_question`, `step_colon_below`: a key too long for that has a mark in front.
  - `step_scalar`, `steps_braces`: the values.
-/

import Mathlib.Logic.Relation
import Transcribe.Data.Yaml.Token
import Transcribe.Proofs.Reload.Scalar

namespace Transcribe.Data.Yaml

variable {rest cs t : List Char} {p q : Position} {allowed : Bool} {I : List Nat}

/-! ## Steps of the lexer -/

namespace Lexer

def Step (s s' : Lexer) : Prop :=
  ∃ c cs t, s.cursor.rest = c :: cs ∧ s.next? c cs = some t ∧ t.settle? = some s' ∧
    s'.cursor.rest.length < s.cursor.rest.length

abbrev Steps : Lexer → Lexer → Prop := Relation.ReflTransGen Step

/-- The tokens to the end of the text from a place where a token starts. -/
def proceed? (n : Nat) (s : Lexer) : Option (List Token) :=
  match s.cursor.rest with
  | [] => s.leaveBlocks?.map (·.tokens.reverse)
  | c :: cs => (s.next? c cs).bind (run? n)

theorem run?_succ (n : Nat) (s : Lexer) : run? (n + 1) s = s.settle?.bind (proceed? n) := by
  rw [run?]
  cases s.settle? <;> rfl

/-- Steps lead to the end, with as many rounds as there are characters. -/
theorem proceed?_of_steps {s s' e : Lexer} (h : Steps s s') (hend : s'.cursor.rest = [])
    (he : s'.leaveBlocks? = some e) {n : Nat} (hn : s.cursor.rest.length ≤ n) :
    s.proceed? n = some e.tokens.reverse := by
  induction h using Relation.ReflTransGen.head_induction_on generalizing n with
  | refl => simp only [proceed?, hend, he, Option.map_some]
  | head hstep _ ih =>
    obtain ⟨c, cs, t, hrest, hnext, hsettle, hlt⟩ := hstep
    obtain ⟨m, rfl⟩ : ∃ m, n = m + 1 := ⟨n - 1, by omega⟩
    simp only [proceed?, hrest, hnext, Option.bind_some]
    rw [run?_succ, hsettle, Option.bind_some]
    exact ih (by omega)

/-! ### Gaps -/

theorem skipGap_fresh (h : Fresh rest) (flow allowed : Bool) (p : Position) :
    skipGap flow false allowed p rest = (⟨p, rest⟩, allowed) := by
  cases rest with
  | nil => rfl
  | cons c cs =>
    obtain ⟨hblank, hbreak, hhash⟩ := h c rfl
    simp only [isBlank, Bool.or_eq_false_iff] at hblank
    rw [skipGap, hbreak, hblank.1, hblank.2, beq_false_of_ne hhash]
    · rfl
    · rintro r rfl -
      cases hbreak

theorem skipGap_blanks (flow allowed : Bool) (p : Position) (n : Nat) (rest : List Char) :
    skipGap flow false allowed p (List.replicate n ' ' ++ rest)
      = skipGap flow false allowed (p.skip n) rest := by
  induction n generalizing p with
  | zero => rfl
  | succ n ih =>
    rw [List.replicate_succ, List.cons_append, skipGap]
    · rw [if_neg (by decide), if_pos (by simp), ih, Position.skip_skip, Nat.add_comm]
    · rintro r ⟨⟩

theorem skipGap_line (h : Fresh rest) (allowed : Bool) (p : Position) (n : Nat) :
    skipGap false false allowed p ('\n' :: (List.replicate n ' ' ++ rest))
      = (⟨(p.newline 1).skip n, rest⟩, true) := by
  rw [skipGap]
  · rw [if_pos (by decide), skipGap_blanks, skipGap_fresh h]
    simp
  · rintro r ⟨⟩

theorem length_skipGap (flow comment allowed : Bool) (p : Position) (cs : List Char) :
    (skipGap flow comment allowed p cs).1.rest.length ≤ cs.length := by
  fun_induction skipGap flow comment allowed p cs with
  | case1 => exact Nat.le_refl _
  | case6 => exact Nat.le_refl _
  | _ => simp only [List.length_cons]; omega

/-- Settling outside of braces: past the gap, without a candidate that has grown stale, and out of
the blocks that the column leaves. -/
theorem settle?_mk {allowed' : Bool} {k? k?' : Option Candidate}
    (hgap : skipGap false false allowed p cs = (⟨q, rest⟩, allowed'))
    (hstale : ∀ k ∈ k?, k.required = true → k.isStale q = false)
    (hkeep : k?.filter (fun k => !k.isStale q) = k?') (T : List Token) (I : List Nat) :
    (Lexer.mk ⟨p, cs⟩ T allowed I k? []).settle? = some (.mk ⟨q, rest⟩
      ((I.takeWhile (q.column < ·)).map (fun _ => .blockEnd) ++ T) allowed'
      (I.dropWhile (q.column < ·)) k?' []) := by
  have hnone : (k?.any fun k => k.required && k.isStale q) = false := by
    cases k? with
    | none => rfl
    | some k =>
      cases hreq : k.required with
      | false => simp [hreq]
      | true => simp [hstale k rfl hreq]
  simp only [settle?, inFlow, List.isEmpty_nil, Bool.not_true, hgap, dropStale?, List.any_cons,
    List.any_nil, hnone, Bool.or_self, Bool.false_eq_true, if_false, Option.map_some, hkeep,
    List.map_nil, closeBlocks, column]
  rfl

/-- Settling at a column that leaves no block. -/
theorem settle?_inside {allowed' : Bool} {k? k?' : Option Candidate}
    (hgap : skipGap false false allowed p cs = (⟨q, rest⟩, allowed'))
    (hstale : ∀ k ∈ k?, k.required = true → k.isStale q = false)
    (hkeep : k?.filter (fun k => !k.isStale q) = k?') (hI : ∀ i ∈ I.head?, i ≤ q.column)
    (T : List Token) :
    (Lexer.mk ⟨p, cs⟩ T allowed I k? []).settle? = some (.mk ⟨q, rest⟩ T allowed' I k?' []) := by
  rw [settle?_mk hgap hstale hkeep]
  cases I with
  | nil => rfl
  | cons i I =>
    have hi : ¬q.column < i := Nat.not_lt.2 (hI i rfl)
    simp [hi]

/-! ### Tokens -/

def opened (column : Nat) (I : List Nat) : List Nat :=
  if I.head?.all (· < column) then column :: I else I

def opening (column : Nat) (I : List Nat) : List Token :=
  if I.head?.all (· < column) then [.blockStart] else []

theorem openBlock_mk (c : Cursor) (T U : List Token) (allowed : Bool) (I : List Nat)
    (k? : Option Candidate) (column : Nat) :
    (Lexer.mk c (U ++ T) allowed I k? []).openBlock column T.length
      = .mk c (U ++ (opening column I ++ T)) allowed (opened column I) k? [] := by
  unfold openBlock opened opening isDeeper
  by_cases hdeeper : I.head?.all (· < column) = true
  · simp [inFlow, hdeeper, insert]
  · simp [inFlow, hdeeper]

/-- A text without quotes is read as a plain scalar. -/
theorem next?_flat {w : List Char} (h : Flat w) (p : Position) (T : List Token) (allowed : Bool)
    (I : List Nat) (k? : Option Candidate) (hmark : p.column = 0 → startsMarker (w ++ rest) = false) :
    ∃ c cs, w ++ rest = c :: cs ∧
      (Lexer.mk ⟨p, w ++ rest⟩ T allowed I k? []).next? c cs
        = (Lexer.mk ⟨p, w ++ rest⟩ T allowed I k? []).plainScalar? := by
  obtain ⟨c, cs, rfl, hindicator, hblank, hdash⟩ := h.first
  refine ⟨c, cs ++ rest, rfl, ?_⟩
  have hcolon := h.not_colon rest
  have hword : c = '-' ∨ c = '?' ∨ c = ':' → endsWord (cs ++ rest) = false := by
    rintro (hc | hc | rfl)
    · exact endsWord_append (hdash (.inl hc)) rest
    · exact endsWord_append (hdash (.inr hc)) rest
    · exact hcolon
  have hquestion : (c == '?' && endsWord (cs ++ rest)) = false := by
    by_cases hc : c = '?'
    · simp [hword (.inr (.inl hc))]
    · simp [hc]
  have hplain : startsPlain false (c :: (cs ++ rest)) = true := by
    unfold startsPlain
    grind
  have hmarker : (p.column == 0 && startsMarker (c :: (cs ++ rest))) = false := by
    by_cases hc : p.column = 0
    · simpa using fun _ => hmark hc
    · simp [hc]
  simp [isIndicator] at hindicator
  simp [next?, inFlow, column, hindicator, hcolon, hquestion, hplain, hmarker]

/-- The least column of the lines of a scalar inside open blocks. -/
def scalarIndent (I : List Nat) : Nat := (I.head?.map (· + 1)).getD 0

theorem scalarIndent_le {column : Nat} (h : ∀ i ∈ I.head?, i ≤ column) :
    scalarIndent I ≤ column + 1 := by
  unfold scalarIndent
  cases hI : I.head? with
  | none => exact Nat.zero_le _
  | some i => exact Nat.succ_le_succ (h i hI)

theorem plainScalar?_mk {w : List Char} {next : Cursor} {broken : Bool}
    (h : plain? ⟨false, scalarIndent I⟩ p {} cs = some (⟨w, next⟩, broken)) (T : List Token)
    (allowed : Bool) :
    (Lexer.mk ⟨p, cs⟩ T allowed I none []).plainScalar?
      = some (.mk next (.scalar .plain (String.ofList w) :: T) broken I
          (if allowed then some ⟨I.head? == some p.column, T.length, p⟩ else none) []) := by
  unfold scalarIndent at h
  cases allowed <;> simp [plainScalar?, saveKey?, dropKey?, context, inFlow, column, emit, h]

/-- A text in front of a colon may be a key. -/
theorem step_key {w : List Char} (hw : Flat w) (hlength : w.length ≤ 1024) (ht : endsWord t = true)
    (hI : ∀ i ∈ I.head?, i ≤ p.column) (T : List Token) :
    Step (.mk ⟨p, w ++ ':' :: t⟩ T true I none [])
      (.mk ⟨p.skip w.length, ':' :: t⟩ (.scalar .plain (String.ofList w) :: T) false I
        (some ⟨I.head? == some p.column, T.length, p⟩) []) := by
  obtain ⟨c, cs, hcs, hnext⟩ := next?_flat hw p T true I none fun _ => hw.unmarked t
  have hfresh : Fresh (':' :: t) := by
    rintro c ⟨⟩
    decide
  have hstale : (Candidate.mk (I.head? == some p.column) T.length p).isStale (p.skip w.length)
      = false := by
    simpa [Candidate.isStale, Position.skip] using hlength
  refine ⟨c, cs, _, hcs, hnext.trans (plainScalar?_mk (plain?_key hw rfl (scalarIndent_le hI) ht)
    T true), ?_, ?_⟩
  · rw [if_pos rfl]
    refine settle?_inside (skipGap_fresh hfresh false false _) ?_ ?_ ?_ _
    · rintro k ⟨⟩ -
      exact hstale
    · simp [hstale]
    · intro i hi
      exact Nat.le_add_right_of_le (hI i hi)
  · show (':' :: t).length < (w ++ ':' :: t).length
    have := hw.pos
    simp only [List.length_append]
    omega

/-- A token of one character, and the gap behind it. -/
theorem step_of_gap {s : Lexer} {c : Char} {T : List Token} {allowed' : Bool}
    (hcs : s.cursor.rest = c :: cs) (hnext : s.next? c cs = some (.mk ⟨p, cs⟩ T allowed I none []))
    (hgap : skipGap false false allowed p cs = (⟨q, rest⟩, allowed'))
    (hI : ∀ i ∈ I.head?, i ≤ q.column) :
    Step s (.mk ⟨q, rest⟩ T allowed' I none []) := by
  refine ⟨c, cs, _, hcs, hnext, settle?_inside hgap (by rintro k ⟨⟩) rfl hI T, ?_⟩
  have hle := length_skipGap false false allowed p cs
  rw [hgap] at hle
  rw [hcs]
  exact Nat.lt_succ_of_le hle

/-- The colon behind a candidate makes it a key, and starts a block if the key is deeper. -/
theorem step_colon {k : Candidate} {T : List Token} (u : Token) (ht : endsWord t = true)
    (hk : k.number = T.length)
    (hgap : skipGap false false false (p.skip 1) t = (⟨q, rest⟩, allowed))
    (hI : ∀ i ∈ (opened k.place.column I).head?, i ≤ q.column) :
    Step (.mk ⟨p, ':' :: t⟩ (u :: T) false I (some k) [])
      (.mk ⟨q, rest⟩ (.value :: u :: .key :: (opening k.place.column I ++ T)) allowed
        (opened k.place.column I) none []) := by
  have hopen := openBlock_mk ⟨p, ':' :: t⟩ T [u, .key] false I (some k) k.place.column
  simp only [List.cons_append, List.nil_append] at hopen
  refine step_of_gap rfl ?_ hgap hI
  simp [next?, inFlow, column, startsMarker, ht, valueMark?, insert, hk, hopen, emit, advance,
    Cursor.drop]

/-- A colon where a key may start has its key above it. -/
theorem step_colon_below (ht : endsWord t = true)
    (hgap : skipGap false false true (p.skip 1) t = (⟨q, rest⟩, allowed))
    (hI : ∀ i ∈ (opened p.column I).head?, i ≤ q.column) (T : List Token) :
    Step (.mk ⟨p, ':' :: t⟩ T true I none [])
      (.mk ⟨q, rest⟩ (.value :: (opening p.column I ++ T)) allowed (opened p.column I) none []) := by
  have hopen := openBlock_mk ⟨p, ':' :: t⟩ T [] true I none p.column
  rw [List.nil_append] at hopen
  refine step_of_gap rfl ?_ hgap hI
  simp [next?, inFlow, column, startsMarker, ht, valueMark?, hopen, emit, advance, Cursor.drop]

/-- A question mark stands in front of a key. -/
theorem step_question (ht : endsWord t = true)
    (hgap : skipGap false false true (p.skip 1) t = (⟨q, rest⟩, allowed))
    (hI : ∀ i ∈ (opened p.column I).head?, i ≤ q.column) (T : List Token) :
    Step (.mk ⟨p, '?' :: t⟩ T true I none [])
      (.mk ⟨q, rest⟩ (.key :: (opening p.column I ++ T)) allowed (opened p.column I) none []) := by
  have hopen := openBlock_mk ⟨p, '?' :: t⟩ T [] true I none p.column
  rw [List.nil_append] at hopen
  refine step_of_gap rfl ?_ hgap hI
  simp [next?, inFlow, column, startsMarker, ht, keyMark?, hopen, dropKey?, emit, advance,
    Cursor.drop]

def closing (column : Nat) (I : List Nat) : List Token :=
  (I.takeWhile (column < ·)).map fun _ => .blockEnd

def kept (column : Nat) (I : List Nat) : List Nat := I.dropWhile (column < ·)

/-- A text at the end of a line. Where a key may start it could be one, but no colon follows it. -/
theorem step_scalar {v : List Char} {n : Nat} (hv : Flat v) (hrest : Fresh rest) (hp : 0 < p.column)
    (hI : ∀ i ∈ I.head?, i ≤ p.column) (hn : n < scalarIndent I)
    (hkey : allowed = true → I.head? ≠ some p.column) (T : List Token) :
    Step (.mk ⟨p, v ++ '\n' :: (List.replicate n ' ' ++ rest)⟩ T allowed I none [])
      (.mk ⟨((p.skip v.length).newline 1).skip n, rest⟩
        (closing n I ++ .scalar .plain (String.ofList v) :: T) true (kept n I) none []) := by
  obtain ⟨c, cs, hcs, hnext⟩ := next?_flat hv p T allowed I none fun h => absurd h (Nat.ne_of_gt hp)
  have hstale : (Candidate.mk (I.head? == some p.column) T.length p).isStale
      (((p.skip v.length).newline 1).skip n) = true := by
    simp [Candidate.isStale, Position.skip, Position.newline]
  have hcolumn : (((p.skip v.length).newline 1).skip n).column = n := by
    simp [Position.skip, Position.newline]
  refine ⟨c, cs, _, hcs, hnext.trans (plainScalar?_mk
    (plain?_value hv rfl (scalarIndent_le hI) hn hrest) T allowed), ?_, ?_⟩
  · rw [settle?_mk (skipGap_fresh hrest false true _) _ _, hcolumn]
    · rfl
    · intro k hk hrequired
      cases allowed with
      | false => cases hk
      | true =>
        cases hk
        exact absurd (by simpa using hrequired) (hkey rfl)
    · cases allowed with
      | false => rfl
      | true => simp [hstale]
  · show rest.length < (v ++ '\n' :: (List.replicate n ' ' ++ rest)).length
    simp only [List.length_append, List.length_cons]
    omega

/-- A pair of braces at the end of a line. -/
theorem steps_braces (hrest : Fresh rest) (T : List Token) (I : List Nat) :
    Steps (.mk ⟨p, '\x7b' :: '\x7d' :: '\n' :: rest⟩ T false I none [])
      (.mk ⟨(p.skip 2).newline 1, rest⟩ (closing 0 I ++ .flowEnd :: .flowStart :: T) true (kept 0 I)
        none []) := by
  let inner : Lexer := .mk ⟨p.skip 1, '\x7d' :: '\n' :: rest⟩ (.flowStart :: T) true I none [none]
  have hfresh : Fresh inner.cursor.rest := by
    rintro c ⟨⟩
    decide
  have hopen : Step (.mk ⟨p, '\x7b' :: '\x7d' :: '\n' :: rest⟩ T false I none []) inner := by
    refine ⟨_, _, inner, rfl, ?_, ?_, Nat.lt_succ_self _⟩
    · simp [next?, column, startsMarker, openBrace?, saveKey?, advance, Cursor.drop, emit, inner]
    · rw [settle?, show inner.inFlow = true from rfl, skipGap_fresh hfresh]
      rfl
  have hclose : Step inner (.mk ⟨(p.skip 2).newline 1, rest⟩
      (closing 0 I ++ .flowEnd :: .flowStart :: T) true (kept 0 I) none []) := by
    refine ⟨_, _, .mk ⟨p.skip 2, '\n' :: rest⟩ (.flowEnd :: .flowStart :: T) false I none [], rfl,
      ?_, ?_, Nat.lt_add_of_pos_right Nat.two_pos⟩
    · simp [next?, column, startsMarker, closeBrace?, dropKey?, advance, Cursor.drop, emit, inner,
        Position.skip_skip]
    · exact settle?_mk (skipGap_line hrest false _ 0) (by rintro k ⟨⟩) rfl _ I
  exact .head hopen (.single hclose)

end Lexer

end Transcribe.Data.Yaml
