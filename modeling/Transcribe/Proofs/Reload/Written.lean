/-
  Transcribe.Proofs.Reload.Written — the tokens of fields that are written below each other.

  A field is a name with a text or with a table of texts. Its characters are what the writer puts
  down when no text needs quotes: a table is one block deeper, and an entry with a long key takes
  two lines. The tokens follow by steps, entry by entry and field by field.
  - `steps_pair`, `steps_question`: the two forms of an entry.
  - `steps_lines`: the entries of a table, from the column that opens the block to the one that
    leaves it.
  - `Token.ofText?_fields`: the tokens of the whole text.
-/

import Mathlib.Data.String.Basic
import Transcribe.Proofs.Reload.Lexer

namespace Transcribe.Data.Yaml

inductive Field where
  | text (value : String)
  | table (entries : List (String × String))

variable {fields : List (String × Field)} {key : String} {I : List Nat} {rest w : List Char}
  {p : Position} {n : Nat}

def entryTokens (key : String) (value : List Token) : List Token :=
  .key :: .scalar .plain key :: .value :: value

/-- An entry of a table without its indentation and without the end of its line. -/
def line (key value : String) : List Char :=
  if isSimpleKey key then key.toList ++ ':' :: ' ' :: value.toList
  else '?' :: ' ' :: (key.toList ++ '\n' :: ' ' :: ' ' :: ':' :: ' ' :: value.toList)

def lines (entries : List (String × String)) : List Char :=
  entries.flatMap fun e => ' ' :: ' ' :: (line e.1 e.2 ++ ['\n'])

def tableTokens (entries : List (String × String)) : List Token :=
  entries.flatMap fun e => entryTokens e.1 [.scalar .plain e.2]

namespace Field

def tokens : Field → List Token
  | .text value => [.scalar .plain value]
  | .table [] => [.flowStart, .flowEnd]
  | .table entries => .blockStart :: (tableTokens entries ++ [.blockEnd])

def chars : Field → List Char
  | .text value => ':' :: ' ' :: (value.toList ++ ['\n'])
  | .table [] => [':', ' ', '\x7b', '\x7d', '\n']
  | .table entries => ':' :: '\n' :: lines entries

def IsFlat : Field → Prop
  | .text value => Flat value.toList
  | .table entries => ∀ e ∈ entries, Flat e.1.toList ∧ Flat e.2.toList

end Field

structure IsFlatField (e : String × Field) : Prop where
  name : Flat e.1.toList
  short : e.1.toList.length ≤ 1024
  field : e.2.IsFlat

def fieldsChars (fields : List (String × Field)) : List Char :=
  fields.flatMap fun e => e.1.toList ++ e.2.chars

def fieldsTokens (fields : List (String × Field)) : List Token :=
  fields.flatMap fun e => entryTokens e.1 e.2.tokens

theorem fresh_fieldsChars (h : ∀ e ∈ fields, IsFlatField e) :
    Fresh (fieldsChars fields) := by
  cases fields with
  | nil => rintro c ⟨⟩
  | cons e fields =>
    rw [fieldsChars, List.flatMap_cons, List.append_assoc]
    exact (h e List.mem_cons_self).name.fresh _

theorem length_toList_le (s : String) : s.toList.length ≤ s.utf8ByteSize := by
  rw [← String.utf8Len_toList]
  induction s.toList with
  | nil => exact Nat.le_refl _
  | cons c cs ih =>
    have hc := Char.utf8Size_pos c
    rw [List.length_cons, String.utf8Len_cons]
    omega

theorem length_le_of_isSimpleKey (h : isSimpleKey key = true) :
    key.toList.length ≤ 1024 := by
  have hle := length_toList_le key
  simp only [isSimpleKey, Bool.and_eq_true, decide_eq_true_eq] at h
  omega

namespace Lexer

/-! ## Entries -/

/-- With a block at its column open, a key stands in the inmost block. -/
theorem head?_opened {column : Nat} (hI : ∀ i ∈ I.head?, i ≤ column) :
    (opened column I).head? = some column := by
  unfold opened
  split
  · rfl
  · rename_i hdeeper
    cases hhead : I.head? with
    | none => simp [hhead] at hdeeper
    | some i =>
      have hle := hI i hhead
      have hge : column ≤ i := by simpa [hhead] using hdeeper
      rw [Nat.le_antisymm hle hge]

/-- At the column of the inmost block no block starts or ends. -/
theorem inmost {column : Nat} (h : I.head? = some column) :
    closing column I = [] ∧ kept column I = I ∧ opening column I = [] ∧ opened column I = I := by
  obtain ⟨J, rfl⟩ := List.head?_eq_some_iff.1 h
  simp [closing, kept, opening, opened]

theorem skipGap_blank_fresh (h : Fresh rest) (allowed : Bool) (p : Position) :
    skipGap false false allowed p (' ' :: rest) = (⟨p.skip 1, rest⟩, allowed) := by
  have hskip := skipGap_blanks false allowed p 1 rest
  rw [skipGap_fresh h] at hskip
  exact hskip

/-- A key with its colon. -/
theorem steps_key {q : Position} {t : List Char} {allowed : Bool} (hw : Flat w)
    (hlength : w.length ≤ 1024) (hI : ∀ i ∈ I.head?, i ≤ p.column) (ht : endsWord t = true)
    (hgap : skipGap false false false (p.skip (w.length + 1)) t = (⟨q, rest⟩, allowed))
    (hq : p.column ≤ q.column) (T : List Token) :
    Steps (.mk ⟨p, w ++ ':' :: t⟩ T true I none [])
      (.mk ⟨q, rest⟩ (.value :: .scalar .plain (String.ofList w) :: .key ::
        (opening p.column I ++ T)) allowed (opened p.column I) none []) := by
  rw [← Position.skip_skip] at hgap
  refine .head (step_key hw hlength ht hI T) (.single (step_colon _ ht rfl hgap ?_))
  intro i hi
  rw [head?_opened hI] at hi
  cases hi
  exact hq

/-- A value that starts behind the column of its key and ends its line. -/
theorem step_value {v : List Char} {column : Nat} {allowed : Bool} (hI : I.head? = some column)
    (hv : Flat v) (hrest : Fresh rest) (hp : column < p.column) (hn : n ≤ column) (T : List Token) :
    ∃ q : Position, q.column = n ∧
      Step (.mk ⟨p, v ++ '\n' :: (List.replicate n ' ' ++ rest)⟩ T allowed I none [])
        (.mk ⟨q, rest⟩ (closing n I ++ .scalar .plain (String.ofList v) :: T) true (kept n I)
          none []) := by
  have hindent : scalarIndent I = column + 1 := by simp [scalarIndent, hI]
  refine ⟨_, ?_, step_scalar hv hrest (by omega) ?_ (by omega) ?_ T⟩
  · simp [Position.skip, Position.newline]
  · intro i hi
    rw [hI] at hi
    cases hi
    omega
  · intro _ heq
    rw [hI] at heq
    cases heq
    omega

/-- A key and a value on one line, with `n` blanks on the next one. -/
theorem steps_pair {v : List Char} (hw : Flat w) (hlength : w.length ≤ 1024) (hv : Flat v)
    (hrest : Fresh rest) (hI : ∀ i ∈ I.head?, i ≤ p.column) (hn : n ≤ p.column) (T : List Token) :
    ∃ q : Position, q.column = n ∧
      Steps (.mk ⟨p, w ++ ':' :: ' ' :: (v ++ '\n' :: (List.replicate n ' ' ++ rest))⟩ T true I
          none [])
        (.mk ⟨q, rest⟩ (closing n (opened p.column I) ++
          ((entryTokens (String.ofList w) [.scalar .plain (String.ofList v)]).reverse ++
            (opening p.column I ++ T))) true (kept n (opened p.column I)) none []) := by
  have hgap := skipGap_blank_fresh (hv.fresh ('\n' :: (List.replicate n ' ' ++ rest))) false
    (p.skip (w.length + 1))
  have hcolumn : p.column < ((p.skip (w.length + 1)).skip 1).column := by
    simp only [Position.skip]
    omega
  obtain ⟨q, hq, hvalue⟩ := step_value (head?_opened hI) hv hrest hcolumn hn _
  exact ⟨q, hq, (steps_key hw hlength hI rfl hgap (Nat.le_of_lt hcolumn) T).tail hvalue⟩

/-- A key behind a question mark, and its value on the next line behind a colon. -/
theorem steps_question {v : List Char} (hw : Flat w) (hv : Flat v) (hrest : Fresh rest)
    (hI : ∀ i ∈ I.head?, i ≤ p.column) (hn : n ≤ p.column) (T : List Token) :
    ∃ q : Position, q.column = n ∧
      Steps (.mk ⟨p, '?' :: ' ' :: (w ++ '\n' :: (List.replicate p.column ' ' ++
          ':' :: ' ' :: (v ++ '\n' :: (List.replicate n ' ' ++ rest))))⟩ T true I none [])
        (.mk ⟨q, rest⟩ (closing n (opened p.column I) ++
          ((entryTokens (String.ofList w) [.scalar .plain (String.ofList v)]).reverse ++
            (opening p.column I ++ T))) true (kept n (opened p.column I)) none []) := by
  have hhead := head?_opened hI
  obtain ⟨hclosing, hkept, hopening, hopened⟩ := inmost hhead
  have hreach : ∀ q : Position, p.column < q.column →
      ∀ i ∈ (opened p.column I).head?, i ≤ q.column := by
    intro q hq i hi
    rw [hhead] at hi
    cases hi
    exact Nat.le_of_lt hq
  have hcolon : Fresh (':' :: ' ' :: (v ++ '\n' :: (List.replicate n ' ' ++ rest))) := by
    rintro c ⟨⟩
    decide
  have hbehind : ∀ q : Position, q.column = p.column → p.column < ((q.skip 1).skip 1).column := by
    intro q hq
    simp only [Position.skip]
    omega
  -- The column of the colon is that of the block, so the key ends there and no block does.
  obtain ⟨q, hq, hkey⟩ := step_value hhead hw hcolon (hbehind p rfl) (Nat.le_refl _)
    (.key :: (opening p.column I ++ T))
  rw [hclosing, hkept, List.nil_append] at hkey
  obtain ⟨r, hr, hvalue⟩ := step_value hhead hv hrest (hbehind q hq) hn
    (.value :: .scalar .plain (String.ofList w) :: .key :: (opening p.column I ++ T))
  have hmark := step_colon_below (I := opened p.column I) rfl
    (skipGap_blank_fresh (hv.fresh ('\n' :: (List.replicate n ' ' ++ rest))) true (q.skip 1))
    (by rw [hq, hopened]; exact hreach _ (hbehind q hq))
    (.scalar .plain (String.ofList w) :: .key :: (opening p.column I ++ T))
  rw [hq, hopening, hopened, List.nil_append] at hmark
  exact ⟨r, hr, .head (step_question rfl (skipGap_blank_fresh (hw.fresh _) true (p.skip 1))
    (hreach _ (hbehind p rfl)) T) (.head hkey (.head hmark (.single hvalue)))⟩

/-- An entry of a table, on two lines if its key is long. -/
theorem steps_line {value : String} (hkey : Flat key.toList) (hvalue : Flat value.toList)
    (hrest : Fresh rest) (hp : p.column = 2) (hI : ∀ i ∈ I.head?, i ≤ 2) (hn : n ≤ 2)
    (T : List Token) :
    ∃ q : Position, q.column = n ∧
      Steps (.mk ⟨p, line key value ++ '\n' :: (List.replicate n ' ' ++ rest)⟩ T true I none [])
        (.mk ⟨q, rest⟩ (closing n (opened 2 I) ++
          ((entryTokens key [.scalar .plain value]).reverse ++ (opening 2 I ++ T))) true
          (kept n (opened 2 I)) none []) := by
  rw [← hp] at hI hn ⊢
  by_cases hsimple : isSimpleKey key = true
  · have hpair := steps_pair hkey (length_le_of_isSimpleKey hsimple) hvalue hrest hI hn T
    simpa [line, hsimple] using hpair
  · have hquestion := steps_question hkey hvalue hrest hI hn T
    rw [hp] at hquestion ⊢
    simpa [line, hsimple] using hquestion

theorem fresh_line (hkey : Flat key.toList) (value : String) (rest : List Char) :
    Fresh (line key value ++ rest) := by
  unfold line
  split
  · rw [List.append_assoc]
    exact hkey.fresh _
  · rintro c ⟨⟩
    decide

/-- The entries of a table. The first one opens the block, and the line behind the last one leaves
it. -/
theorem steps_lines (es : List (String × String)) {e : String × String}
    (hflat : ∀ d ∈ e :: es, Flat d.1.toList ∧ Flat d.2.toList) (hrest : Fresh rest)
    (hp : p.column = 2) (hI : I = [0] ∨ I = [2, 0]) (T : List Token) :
    ∃ q : Position, q.column = 0 ∧
      Steps (.mk ⟨p, line e.1 e.2 ++ '\n' :: (lines es ++ rest)⟩ T true I none [])
        (.mk ⟨q, rest⟩ (.blockEnd :: ((tableTokens (e :: es)).reverse ++ (opening 2 I ++ T))) true
          [0] none []) := by
  have hopened : opened 2 I = [2, 0] := by
    rcases hI with rfl | rfl <;> rfl
  have hreach : ∀ i ∈ I.head?, i ≤ 2 := by
    rcases hI with rfl | rfl <;> simp
  obtain ⟨hkey, hvalue⟩ := hflat e List.mem_cons_self
  induction es generalizing e p I T with
  | nil =>
    obtain ⟨q, hq, hsteps⟩ := steps_line hkey hvalue hrest hp hreach (Nat.zero_le 2) T
    rw [hopened] at hsteps
    refine ⟨q, hq, ?_⟩
    simpa [lines, tableTokens, closing, kept] using hsteps
  | cons d ds ih =>
    have hflat' : ∀ d' ∈ d :: ds, Flat d'.1.toList ∧ Flat d'.2.toList := fun d' hd' =>
      hflat d' (List.mem_cons_of_mem e hd')
    obtain ⟨hkey', hvalue'⟩ := hflat' d List.mem_cons_self
    obtain ⟨q, hq, hsteps⟩ := steps_line hkey hvalue
      (fresh_line hkey' d.2 ('\n' :: (lines ds ++ rest))) hp hreach (Nat.le_refl 2) T
    obtain ⟨r, hr, hsteps'⟩ := ih hflat' hq (.inr rfl)
      ((entryTokens e.1 [.scalar .plain e.2]).reverse ++ (opening 2 I ++ T)) rfl (by simp) hkey'
      hvalue'
    rw [hopened] at hsteps
    refine ⟨r, hr, ?_⟩
    simpa [lines, tableTokens, opening] using hsteps.trans hsteps'

/-! ## Fields -/

theorem steps_field {name : String} {f : Field} (hname : Flat name.toList)
    (hlength : name.toList.length ≤ 1024) (hf : f.IsFlat) (hrest : Fresh rest) (hp : p.column = 0)
    (hI : I = [] ∨ I = [0]) (T : List Token) :
    ∃ q : Position, q.column = 0 ∧
      Steps (.mk ⟨p, name.toList ++ (f.chars ++ rest)⟩ T true I none [])
        (.mk ⟨q, rest⟩ ((entryTokens name f.tokens).reverse ++ (opening 0 I ++ T)) true [0] none
          []) := by
  have hopened : opened p.column I = [0] := by
    rw [hp]
    rcases hI with rfl | rfl <;> rfl
  have hreach : ∀ i ∈ I.head?, i ≤ p.column := by
    rcases hI with rfl | rfl <;> simp
  have hopening : opening p.column I = opening 0 I := by rw [hp]
  match f with
  | .text value =>
    have hpair := steps_pair hname hlength hf hrest hreach (Nat.zero_le _) T
    rw [hopened, hopening] at hpair
    simpa [Field.chars, Field.tokens, closing, kept] using hpair
  | .table [] =>
    have hfresh : Fresh ('\x7b' :: '\x7d' :: '\n' :: rest) := by
      rintro c ⟨⟩
      decide
    have hkey := steps_key hname hlength hreach rfl
      (skipGap_blank_fresh hfresh false (p.skip (name.toList.length + 1))) (by omega) T
    rw [hopened, hopening] at hkey
    refine ⟨(((p.skip (name.toList.length + 1)).skip 1).skip 2).newline 1, rfl, ?_⟩
    simpa [Field.chars, Field.tokens, closing, kept, entryTokens]
      using hkey.trans (steps_braces hrest _ [0])
  | .table (e :: es) =>
    have hfresh := fresh_line (hf e List.mem_cons_self).1 e.2 ('\n' :: (lines es ++ rest))
    have hkey := steps_key hname hlength hreach rfl
      (skipGap_line hfresh false (p.skip (name.toList.length + 1)) 2) (by omega) T
    rw [hopened, hopening] at hkey
    obtain ⟨q, hq, hlines⟩ := steps_lines es hf hrest
      (show (((p.skip (name.toList.length + 1)).newline 1).skip 2).column = 2 from rfl) (.inl rfl) _
    refine ⟨q, hq, ?_⟩
    simpa [Field.chars, Field.tokens, lines, entryTokens, opening] using hkey.trans hlines

/-- Fields below each other, inside the block of the first one. -/
theorem steps_fields (h : ∀ e ∈ fields, IsFlatField e) (hp : p.column = 0) (T : List Token) :
    ∃ q : Position, Steps (.mk ⟨p, fieldsChars fields⟩ T true [0] none [])
      (.mk ⟨q, []⟩ ((fieldsTokens fields).reverse ++ T) true [0] none []) := by
  induction fields generalizing p T with
  | nil => exact ⟨p, .refl⟩
  | cons e fields ih =>
    obtain ⟨he, hfields⟩ := List.forall_mem_cons.1 h
    obtain ⟨q, hq, hsteps⟩ := steps_field he.name he.short he.field (fresh_fieldsChars hfields) hp
      (.inr rfl) T
    obtain ⟨r, hsteps'⟩ := ih hfields hq ((entryTokens e.1 e.2.tokens).reverse ++ T)
    refine ⟨r, ?_⟩
    simpa [fieldsChars, fieldsTokens, opening] using hsteps.trans hsteps'

end Lexer

/-! ## Whole texts -/

theorem isAllowed_of_printed {c : Char} (h : isPrinted c = true) : isAllowed c = true := by
  simp only [isPrinted, Bool.or_eq_true, Bool.and_eq_true, decide_eq_true_eq] at h
  simp only [isAllowed, Bool.or_eq_true, Bool.and_eq_true, decide_eq_true_eq]
  tauto

theorem Flat.allowed (h : Flat w) : w.all isAllowed = true :=
  List.all_eq_true.2 fun c hc => isAllowed_of_printed (h.printed c hc)

theorem all_isAllowed_line {value : String} (hkey : Flat key.toList) (hvalue : Flat value.toList) :
    (line key value).all isAllowed = true := by
  unfold line
  split <;> simp only [List.all_cons, List.all_append, hkey.allowed, hvalue.allowed] <;> decide

theorem Field.IsFlat.allowed {f : Field} (h : f.IsFlat) : f.chars.all isAllowed = true := by
  match f with
  | .text value =>
    simp only [chars, List.all_cons, List.all_append, Flat.allowed h]
    decide
  | .table [] => decide
  | .table (e :: es) =>
    have hlines : (lines (e :: es)).all isAllowed = true := by
      rw [lines, List.all_flatMap, List.all_eq_true]
      intro d hd
      simp only [List.all_cons, List.all_append, all_isAllowed_line (h d hd).1 (h d hd).2]
      decide
    rw [chars, List.all_cons, List.all_cons, hlines]
    · decide
    · simp

theorem all_isAllowed_fieldsChars (h : ∀ e ∈ fields, IsFlatField e) :
    (fieldsChars fields).all isAllowed = true := by
  rw [fieldsChars, List.all_flatMap, List.all_eq_true]
  intro e he
  rw [List.all_append, (h e he).name.allowed, (h e he).field.allowed]
  rfl

/-- No byte order mark stands in front. -/
theorem Flat.start (h : Flat w) (rest : List Char) :
    Cursor.start (w ++ rest) = ⟨{}, w ++ rest⟩ := by
  obtain ⟨c, cs, rfl, -⟩ := h.first
  have hc : c ≠ '\ufeff' := by
    rintro rfl
    exact absurd (h.printed _ List.mem_cons_self) (by decide)
  rw [List.cons_append, Cursor.start]
  rintro r ⟨⟩
  exact hc rfl

/-- The tokens of fields below each other. -/
theorem Token.ofText?_fields {e : String × Field} (h : ∀ d ∈ e :: fields, IsFlatField d) :
    Token.ofText? (String.ofList (fieldsChars (e :: fields)))
      = some (.blockStart :: (fieldsTokens (e :: fields) ++ [Token.blockEnd])) := by
  obtain ⟨he, hfields⟩ := List.forall_mem_cons.1 h
  have hchars : fieldsChars (e :: fields) = e.1.toList ++ (e.2.chars ++ fieldsChars fields) := by
    simp [fieldsChars]
  let s : Lexer := { cursor := ⟨{}, fieldsChars (e :: fields)⟩ }
  have hstart : Cursor.start (fieldsChars (e :: fields)) = s.cursor := by
    rw [hchars, he.name.start, ← hchars]
  have hsettle : s.settle? = some s :=
    Lexer.settle?_inside (Lexer.skipGap_fresh (fresh_fieldsChars h) false true {})
      (by rintro k ⟨⟩) rfl (by rintro i ⟨⟩) []
  obtain ⟨q, hq, hfirst⟩ := Lexer.steps_field (p := {}) he.name he.short he.field
    (fresh_fieldsChars hfields) rfl (.inl rfl) []
  obtain ⟨r, hsteps⟩ := Lexer.steps_fields hfields hq
    ((entryTokens e.1 e.2.tokens).reverse ++ (Lexer.opening 0 [] ++ []))
  rw [← hchars] at hfirst
  have hrun : s.proceed? (fieldsChars (e :: fields)).length = _ :=
    Lexer.proceed?_of_steps (hfirst.trans hsteps) rfl rfl (Nat.le_refl _)
  simp only [Token.ofText?, String.toList_ofList, all_isAllowed_fieldsChars h, if_true]
  rw [hstart, Lexer.run?_succ, hsettle, Option.bind_some, hrun]
  simp [fieldsTokens, Lexer.opening, Lexer.closeBlocks, Lexer.inFlow]

end Transcribe.Data.Yaml
