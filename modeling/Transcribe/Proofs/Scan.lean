/-
  Transcribe.Proofs.Scan — the pass that finds comments, one character at a time.

  The pass reads a text from left to right and is in one of a few states. Told this way, what it
  finds in a text that is written bit by bit follows from what it finds in the bits, as long as
  each bit begins with a character that settles the state before it: behind a slash neither a slash
  nor a star, in a line comment or a literal a line break, in code anything.

  A state has the text of the comment it is in, so the pass gives texts (`texts`) where the table of
  a text has spans. The two are run side by side: `Meets` relates the region of one to the state of
  the other, and `Agrees` is what they come to for a part of a text.
  - `texts_append`: the comments of two texts one behind the other.
  - `agrees`: the table of a text is made of the tables of its parts, with the same comments.
  - `slices_comments`: the table of a text holds the comments the pass finds.
-/

import Transcribe.Proofs.TokenEnds
import Mathlib.Data.List.Forall2
import Mathlib.Data.List.Induction

namespace Transcribe.Text

/-- What the pass is in. Inside a comment it has the text of the comment so far. -/
inductive Scan where
  | code
  /-- Behind a slash in code. -/
  | slash
  | line (acc : List Char)
  | block (acc : List Char)
  /-- In a block comment, behind a star. -/
  | star (acc : List Char)
  | literal (quote : Char)
  /-- In a literal, behind a backslash. -/
  | escape (quote : Char)
  deriving DecidableEq

variable {m : Scan} {c : Char} {a b cs u : List Char} {o : Nat}

namespace Scan

def opens (c : Char) : Scan :=
  if c = '/' then .slash else if isQuote c = true then .literal c else .code

def next : Scan → Char → Scan
  | .code, c => opens c
  | .slash, c =>
    if c = '/' then .line ['/', '/'] else if c = '*' then .block ['/', '*'] else opens c
  | .line acc, c => if isBreak c = true then .code else .line (acc ++ [c])
  | .block acc, c => if c = '*' then .star (acc ++ [c]) else .block (acc ++ [c])
  | .star acc, c =>
    if c = '/' then .code else if c = '*' then .star (acc ++ [c]) else .block (acc ++ [c])
  | .literal q, c =>
    if c = '\\' then .escape q else if c = q ∨ isBreak c = true then .code else .literal q
  | .escape q, _ => .literal q

def closing : Scan → Char → List (List Char)
  | .line acc, c => if isBreak c = true then [acc] else []
  | .star acc, c => if c = '/' then [acc ++ [c]] else []
  | _, _ => []

def pending : Scan → List (List Char)
  | .line acc | .block acc | .star acc => [acc]
  | _ => []

def finish (m : Scan) (cs : List Char) : Scan := cs.foldl next m

def texts : Scan → List Char → List (List Char)
  | m, [] => m.pending
  | m, c :: cs => m.closing c ++ texts (m.next c) cs

@[simp] theorem finish_nil (m : Scan) : m.finish [] = m := rfl

@[simp] theorem finish_cons (m : Scan) (c : Char) (cs : List Char) :
    m.finish (c :: cs) = (m.next c).finish cs := rfl

@[simp] theorem finish_append (m : Scan) (a b : List Char) :
    m.finish (a ++ b) = (m.finish a).finish b := List.foldl_append

/-! ## Settling -/

def settles : Scan → Char → Bool
  | .code, _ => true
  | .slash, c => c != '/' && c != '*'
  | .line _, c | .literal _, c => isBreak c
  | _, _ => false

def Settles (m : Scan) (b : List Char) : Prop := ∀ c r, b = c :: r → m.settles c = true

theorem settles_nil (m : Scan) : m.Settles [] := by rintro c r ⟨⟩

theorem settles_code (b : List Char) : Settles .code b := fun _ _ _ => rfl

theorem settles_cons {r : List Char} : m.Settles (c :: r) ↔ m.settles c = true :=
  ⟨fun h => h c r rfl, by rintro h _ _ ⟨⟩; exact h⟩

/-- Behind some states nothing is read as behind code. -/
theorem eq_nil_of_stuck (h : m.Settles b) (hm : ∀ c, m.settles c = false) : b = [] := by
  cases b with
  | nil => rfl
  | cons c r => exact absurd (settles_cons.1 h) (by simp [hm])

theorem break_cases (h : isBreak c = true) : c = '\n' ∨ c = '\r' := by
  simpa [isBreak] using h

theorem opens_break (h : isBreak c = true) : opens c = .code := by
  rcases break_cases h with rfl | rfl <;> rfl

theorem next_of_settles (h : m.settles c = true) :
    m.next c = opens c ∧ m.closing c = m.pending := by
  cases m with
  | code => exact ⟨rfl, rfl⟩
  | slash =>
    obtain ⟨h₁, h₂⟩ : c ≠ '/' ∧ c ≠ '*' := by simpa [settles] using h
    simp [next, closing, pending, h₁, h₂]
  | line acc =>
    have hc : isBreak c = true := h
    simp [next, closing, pending, hc, opens_break hc]
  | literal q =>
    have hc : isBreak c = true := h
    have hne : c ≠ '\\' := by rcases break_cases hc with rfl | rfl <;> decide
    simp [next, closing, pending, hc, hne, opens_break hc]
  | block acc | star acc | escape q => cases h

theorem finish_of_settles (h : m.Settles b) (hb : b ≠ []) :
    m.finish b = finish .code b := by
  cases b with
  | nil => exact absurd rfl hb
  | cons c r => rw [finish_cons, finish_cons, (next_of_settles (settles_cons.1 h)).1]; rfl

/-- The comments of two texts, if the second is read as behind code. -/
theorem texts_append (h : (m.finish a).Settles b) :
    m.texts (a ++ b) = m.texts a ++ texts .code b := by
  induction a generalizing m with
  | nil =>
    cases b with
    | nil => simp [texts, pending]
    | cons c r =>
      obtain ⟨hnext, hclosing⟩ : m.next c = opens c ∧ m.closing c = m.pending :=
        next_of_settles (settles_cons.1 h)
      rw [List.nil_append, texts, texts, texts, hnext, hclosing]
      rfl
  | cons c a ih => rw [List.cons_append, texts, texts, ih h, List.append_assoc]

/-! ## The table -/

/-- The state belongs to the region of the pass over the table behind a text. Inside a comment the
text ends with what has been read of it. -/
inductive Meets : List Char → Region → Scan → Prop where
  | code {u : List Char} : Meets u .code .code
  | line {v acc : List Char} : Meets (v ++ acc) (.line (byteLength v)) (.line acc)
  | block {v acc : List Char} : Meets (v ++ acc) (.block (byteLength v)) (.block acc)
  | literal {u : List Char} {q : Char} : Meets u (.literal q) (.literal q)

theorem opens_of_ne (h : c ≠ '/') :
    opens c = if isQuote c = true then .literal c else .code := if_neg h

/-- A slash that opens no comment is read over. -/
theorem slash_of_head (h : ∀ r, cs ≠ '/' :: r ∧ cs ≠ '*' :: r) :
    Settles .slash cs := by
  rintro c r rfl
  simp only [settles, Bool.and_eq_true, bne_iff_ne]
  exact ⟨fun hc => (h r).1 (by rw [hc]), fun hc => (h r).2 (by rw [hc])⟩

theorem texts_of_settles (h : m.Settles cs) :
    m.texts cs = m.pending ++ texts .code cs := texts_append (a := []) h

/-- Behind a star that does not end its comment the pass is in the comment as before. -/
theorem star_of_head (h : ∀ r, cs ≠ '/' :: r) :
    (star a).texts cs = (block a).texts cs ∧
      (cs ≠ [] → (star a).finish cs = (block a).finish cs) := by
  cases cs with
  | nil => exact ⟨rfl, fun hne => absurd rfl hne⟩
  | cons c r =>
    have hc : c ≠ '/' := fun hc => h r (by rw [hc])
    simp [texts, next, closing, hc]

abbrev Slices (w : List Char) : List Span → List (List Char) → Prop :=
  List.Forall₂ fun c t => slice? w c = some t

/-- What the table has of a text it has of its parts, and it has the comments the pass finds. -/
structure Agrees (r : Region) (m : Scan) (o : Nat) (u a : List Char) : Prop where
  append : ∀ b, (m.finish a).Settles b →
    commentsFrom r o (a ++ b) = commentsFrom r o a ++ commentsFrom .code (o + byteLength a) b
  slices : ∀ v, Slices (u ++ a ++ v) (commentsFrom r o a) (m.texts a)

/-- Behind some more characters `w`, with which the comments `xs` end. -/
theorem Agrees.of_step {r r' : Region} {m' : Scan} {o' : Nat} {w : List Char} (xs : List Span)
    (ts : List (List Char)) (h : Agrees r' m' o' (u ++ w) a) (ho : o' = o + byteLength w)
    (hr : ∀ b, (m'.finish a).Settles b →
      commentsFrom r o (w ++ (a ++ b)) = xs ++ commentsFrom r' o' (a ++ b))
    (hfinish : m.finish (w ++ a) = m'.finish a) (htexts : m.texts (w ++ a) = ts ++ m'.texts a)
    (hxs : ∀ v, Slices (u ++ w ++ v) xs ts) : Agrees r m o u (w ++ a) := by
  have hself : commentsFrom r o (w ++ a) = xs ++ commentsFrom r' o' a := by
    simpa using hr [] (settles_nil _)
  refine ⟨fun b hb => ?_, fun v => ?_⟩
  · rw [hfinish] at hb
    rw [List.append_assoc, hr b hb, hself, h.append b hb, byteLength_append, ho, Nat.add_assoc,
      List.append_assoc]
  · rw [hself, htexts]
    refine List.rel_append ?_ ?_
    · simpa using hxs (a ++ v)
    · simpa using h.slices v

theorem commentsFrom_code_of_ne (hc : c ≠ '/') (o : Nat) (b : List Char) :
    commentsFrom .code o (c :: b)
      = commentsFrom (if isQuote c then .literal c else .code) (o + c.utf8Size) b := by
  rw [commentsFrom]
  · rintro _ rfl
    exact absurd rfl hc
  · rintro _ rfl
    exact absurd rfl hc

theorem commentsFrom_code_break (hc : isBreak c = true) (o : Nat) (b : List Char) :
    commentsFrom .code o (c :: b) = commentsFrom .code (o + c.utf8Size) b := by
  rcases break_cases hc with rfl | rfl <;> rfl

theorem commentsFrom_slash (hb : Settles .slash b) :
    commentsFrom .code o ('/' :: b) = commentsFrom .code (o + 1) b := by
  refine Grammar.commentsFrom_code_cons rfl fun _ => ?_
  cases b with
  | nil => simp
  | cons c r => simpa [settles] using settles_cons.1 hb

/-- A slash that opens no comment. -/
theorem agrees_slash (hcs : Settles .slash cs) (h : Agrees .code .code (o + 1) (u ++ ['/']) cs) :
    Agrees .code .code o u (['/'] ++ cs) := by
  cases cs with
  | nil => exact ⟨fun b hb => commentsFrom_slash hb, fun _ => .nil⟩
  | cons c cs =>
    exact .of_step [] [] h rfl
      (fun b _ => commentsFrom_slash (b := c :: (cs ++ b)) (settles_cons.2 (settles_cons.1 hcs)))
      (finish_of_settles hcs (by simp)) (texts_of_settles hcs) fun _ => .nil

/-- A character of a block comment that does not end it. -/
theorem agrees_block {start : Nat} {acc : List Char} (hc : ∀ r, c = '*' → cs ≠ '/' :: r)
    (h : Agrees (.block start) (.block (acc ++ [c])) (o + c.utf8Size) (u ++ [c]) cs) :
    Agrees (.block start) (.block acc) o u ([c] ++ cs) := by
  have hpass : ∀ b, (c = '*' → ∀ r, b ≠ '/' :: r) → commentsFrom (.block start) o (c :: b)
      = commentsFrom (.block start) (o + c.utf8Size) b := by
    intro b hb
    rw [commentsFrom]
    rintro r rfl rfl
    exact hb rfl r rfl
  by_cases hstar : c = '*'
  · subst hstar
    have hstar := star_of_head (a := acc ++ ['*']) fun r => hc r rfl
    cases cs with
    | nil =>
      refine ⟨fun b hb => ?_, fun v => ?_⟩
      · obtain rfl := eq_nil_of_stuck hb fun _ => rfl
        simp [commentsFrom]
      · simpa [commentsFrom, texts, next, closing, pending] using h.slices v
    | cons d cs =>
      have hd : ∀ r, d :: cs ≠ '/' :: r := fun r => hc r rfl
      refine .of_step [] [] h rfl (fun b _ => hpass _ fun _ r hr => ?_)
        (hstar.2 (by simp)) hstar.1 fun _ => .nil
      exact hd cs (by rw [(List.cons.inj hr).1])
  · refine .of_step [] [] h rfl (fun b _ => hpass _ fun h => absurd h hstar) ?_ ?_ fun _ => .nil
    all_goals simp [next, texts, closing, hstar]

theorem agrees {r : Region} (hm : Meets u r m) (ho : o = byteLength u) : Agrees r m o u a := by
  -- The pass over the table drives the induction; `u` is the text it has left behind, in which the
  -- comment it is in begins.
  fun_induction commentsFrom r o a generalizing m u with
  | case1 o cs ih =>
    cases hm
    subst ho
    have hrest := ih (u := u ++ ['/', '/']) .line (by simp; rfl)
    exact .of_step [] [] hrest rfl (fun _ _ => rfl) rfl rfl fun _ => .nil
  | case2 o cs ih =>
    cases hm
    subst ho
    have hrest := ih (u := u ++ ['/', '*']) .block (by simp; rfl)
    exact .of_step [] [] hrest rfl (fun _ _ => rfl) rfl rfl fun _ => .nil
  | case3 o c cs h₁ h₂ ih =>
    cases hm
    by_cases hc : c = '/'
    · subst hc
      have hrest := ih (u := u ++ ['/']) .code (by simp [ho])
      exact agrees_slash (slash_of_head fun r => ⟨fun h => h₁ r rfl h, fun h => h₂ r rfl h⟩) hrest
    · by_cases hq : isQuote c = true
      · rw [if_pos hq] at ih
        have hrest := ih (u := u ++ [c]) .literal (by simp [ho])
        refine .of_step [] [] hrest rfl (fun b _ => ?_) ?_ ?_ fun _ => .nil
        all_goals simp [commentsFrom_code_of_ne hc, next, opens_of_ne hc, hq, texts, closing]
      · rw [if_neg hq] at ih
        have hrest := ih (u := u ++ [c]) .code (by simp [ho])
        refine .of_step [] [] hrest rfl (fun b _ => ?_) ?_ ?_ fun _ => .nil
        all_goals simp [commentsFrom_code_of_ne hc, next, opens_of_ne hc, hq, texts, closing]
  | case4 start o c cs hc ih =>
    cases hm with | @line v acc => ?_
    have hrest := ih (u := v ++ acc ++ [c]) .code (by simp [ho, Nat.add_assoc])
    refine .of_step [⟨byteLength v, o⟩] [acc] hrest rfl (fun b _ => ?_) ?_ ?_ fun w => .cons ?_ .nil
    · simp [commentsFrom, hc]
    · simp [hc, next]
    · simp [hc, next, texts, closing]
    · simpa [ho] using slice?_append v acc ([c] ++ w)
  | case5 start o c cs hc ih =>
    cases hm with | @line v acc => ?_
    have hacc : Meets (v ++ acc ++ [c]) (.line (byteLength v)) (.line (acc ++ [c])) := by
      rw [List.append_assoc]
      exact .line
    have hrest := ih hacc (by simp [ho, Nat.add_assoc])
    refine .of_step [] [] hrest rfl (fun b _ => ?_) ?_ ?_ fun _ => .nil
    all_goals simp [commentsFrom, hc, next, texts, closing]
  | case6 start o cs ih =>
    cases hm with | @block v acc => ?_
    have htwo : byteLength ['*', '/'] = 2 := rfl
    have hrest := ih (u := v ++ acc ++ ['*', '/']) .code (by simp only [byteLength_append, ho, htwo])
    refine .of_step [⟨byteLength v, o + 2⟩] [acc ++ ['*', '/']] hrest rfl (fun b _ => rfl) rfl ?_
      fun w => .cons ?_ .nil
    · simp [next, texts, closing]
    · have := slice?_append v (acc ++ ['*', '/']) w
      rwa [byteLength_append, htwo, ← List.append_assoc, ← Nat.add_assoc, ← byteLength_append,
        ← ho] at this
  | case7 start o c cs hc ih =>
    cases hm with | @block v acc => ?_
    have hacc : Meets (v ++ acc ++ [c]) (.block (byteLength v)) (.block (acc ++ [c])) := by
      rw [List.append_assoc]
      exact .block
    exact agrees_block (fun r h h' => hc r h h') (ih hacc (by simp [ho, Nat.add_assoc]))
  | case8 quote o c cs ih =>
    cases hm
    have hone : '\\'.utf8Size = 1 := rfl
    have hrest := ih (u := u ++ ['\\', c]) .literal (by simp [ho, hone, Nat.add_assoc])
    refine .of_step [] [] hrest (by simp [hone, Nat.add_assoc]) (fun b _ => rfl) ?_ ?_ fun _ => .nil
    all_goals simp [next, texts, closing]
  | case9 quote o c cs hc ih =>
    cases hm
    by_cases hesc : c = '\\'
    · obtain rfl : cs = [] := by
        cases cs with
        | nil => rfl
        | cons d cs => exact (hc d cs hesc rfl).elim
      refine ⟨fun b hb => ?_, fun v => ?_⟩
      · obtain rfl := eq_nil_of_stuck hb (by simp [next, hesc, settles])
        simp [commentsFrom]
      · simp only [commentsFrom_literal_cons fun _ => rfl, texts, next, hesc]
        split <;> simp [commentsFrom, closing, pending]
    · have hpass : ∀ b, commentsFrom (.literal quote) o (c :: b) = commentsFrom
          (if c == quote || isBreak c then .code else .literal quote) (o + c.utf8Size) b :=
        fun b => commentsFrom_literal_cons fun h => absurd h hesc
      by_cases hend : c = quote ∨ isBreak c = true
      · have hend' : (c == quote || isBreak c) = true := by simpa using hend
        rw [if_pos hend'] at ih
        have hrest := ih (u := u ++ [c]) .code (by simp [ho])
        refine .of_step [] [] hrest rfl (fun b _ => ?_) ?_ ?_ fun _ => .nil
        · rw [List.singleton_append, hpass, if_pos hend']
          rfl
        all_goals simp [next, texts, closing, hesc, hend]
      · have hend' : ¬ (c == quote || isBreak c) = true := by simpa using hend
        rw [if_neg hend'] at ih
        have hrest := ih (u := u ++ [c]) .literal (by simp [ho])
        refine .of_step [] [] hrest rfl (fun b _ => ?_) ?_ ?_ fun _ => .nil
        · rw [List.singleton_append, hpass, if_neg hend']
          rfl
        all_goals simp [next, texts, closing, hesc, hend]
  | case10 start o =>
    cases hm with | @line v acc => ?_
    refine ⟨fun b hb => ?_, fun w => .cons ?_ .nil⟩
    · cases b with
      | nil => simp [commentsFrom]
      | cons d r =>
        have hd : isBreak d = true := settles_cons.1 hb
        simp [commentsFrom, hd, commentsFrom_code_break hd]
    · simpa [ho] using slice?_append v acc w
  | case11 start o =>
    cases hm with | @block v acc => ?_
    refine ⟨fun b hb => ?_, fun w => .cons ?_ .nil⟩
    · obtain rfl := eq_nil_of_stuck hb fun _ => rfl
      simp [commentsFrom]
    · simpa [ho] using slice?_append v acc w
  | case12 o =>
    cases hm
    exact ⟨fun b _ => by simp [commentsFrom], fun _ => .nil⟩
  | case13 quote o =>
    cases hm
    refine ⟨fun b hb => ?_, fun _ => .nil⟩
    cases b with
    | nil => simp [commentsFrom]
    | cons d r =>
      have hd : isBreak d = true := settles_cons.1 hb
      have hesc : d = '\\' → r = [] := by rintro rfl; cases hd
      simp [commentsFrom, commentsFrom_literal_cons hesc, hd, commentsFrom_code_break hd]

/-- The table of a text holds the comments the pass finds. -/
theorem slices_comments (w : List Char) : Slices w (comments w) (texts .code w) := by
  simpa [comments] using (agrees (u := []) (a := w) .code rfl).slices []

/-! ## What has been read -/

def blockCloses : List Char → Bool
  | '*' :: '/' :: _ => true
  | _ :: cs => blockCloses cs
  | [] => false

theorem blockCloses_cons (h : c = '*' → ∀ r, cs ≠ '/' :: r) :
    blockCloses (c :: cs) = blockCloses cs := by
  rw [blockCloses]
  rintro r rfl rfl
  exact h rfl r rfl

def Behind (g : List Char) : Scan → Prop
  | .slash => ∃ u, g = u ++ ['/'] ∧ finish .code u = .code
  | .line acc => ∃ u t, g = u ++ acc ∧ acc = '/' :: '/' :: t ∧ ∀ c ∈ t, isBreak c = false
  | .block acc => ∃ u t, g = u ++ acc ∧ acc = '/' :: '*' :: t ∧ finish .code u = .code ∧
      ∀ x, blockCloses (t ++ x) = blockCloses x
  | .star acc => ∃ u t, g = u ++ acc ∧ acc = '/' :: '*' :: t ∧ finish .code u = .code ∧
      ∀ x, blockCloses (t ++ x) = blockCloses ('*' :: x)
  | _ => True

theorem behind_opens {g : List Char} (h : c = '/' → finish .code g = .code) :
    Behind (g ++ [c]) (opens c) := by
  unfold opens
  split
  · rename_i hc
    exact ⟨g, by rw [hc], h hc⟩
  · split <;> trivial

theorem behind_finish (g : List Char) : Behind g (finish .code g) := by
  induction g using List.reverseRecOn with
  | nil => trivial
  | append_singleton g c ih =>
    rw [finish_append]
    change Behind (g ++ [c]) ((finish .code g).next c)
    cases hm : finish .code g with
    | code => exact behind_opens fun _ => hm
    | slash =>
      rw [hm] at ih
      obtain ⟨u, rfl, hu⟩ := ih
      simp only [next]
      split
      · rename_i hc
        exact ⟨u, [], by simp [hc], rfl, by simp⟩
      · split
        · rename_i hc
          exact ⟨u, [], by simp [hc], rfl, hu, fun _ => rfl⟩
        · rename_i hc _
          exact behind_opens fun h => absurd h hc
    | line acc =>
      rw [hm] at ih
      obtain ⟨u, t, rfl, rfl, ht⟩ := ih
      simp only [next]
      split
      · trivial
      · rename_i hc
        exact ⟨u, t ++ [c], by simp, by simp, by simpa [or_imp, forall_and, hc] using ht⟩
    | block acc =>
      rw [hm] at ih
      obtain ⟨u, t, rfl, rfl, hu, ht⟩ := ih
      simp only [next]
      split
      · rename_i hc
        exact ⟨u, t ++ [c], by simp, by simp, hu, fun x => by simp [ht, hc]⟩
      · rename_i hc
        refine ⟨u, t ++ [c], by simp, by simp, hu, fun x => ?_⟩
        rw [List.append_assoc, ht, List.singleton_append, blockCloses_cons fun h => absurd h hc]
    | star acc =>
      rw [hm] at ih
      obtain ⟨u, t, rfl, rfl, hu, ht⟩ := ih
      simp only [next]
      split
      · trivial
      · rename_i hc
        have hstar : ∀ x, blockCloses (t ++ ([c] ++ x)) = blockCloses (c :: x) := by
          intro x
          rw [ht, List.singleton_append, blockCloses_cons]
          rintro - r h
          exact hc (List.cons.inj h).1
        split
        · rename_i hc'
          refine ⟨u, t ++ [c], by simp, by simp, hu, fun x => ?_⟩
          rw [List.append_assoc, hstar, hc']
        · rename_i hc'
          refine ⟨u, t ++ [c], by simp, by simp, hu, fun x => ?_⟩
          rw [List.append_assoc, hstar, blockCloses_cons fun h => absurd h hc']
    | literal q =>
      simp only [next]
      split
      · trivial
      · split <;> trivial
    | escape q => trivial

/-! ## Text without comments -/

structure Plain (w : List Char) : Prop where
  finish : finish .code w = .code
  texts : texts .code w = []

theorem Plain.nil : Plain [] := ⟨rfl, rfl⟩

theorem Plain.append {v w : List Char} (hv : Plain v) (hw : Plain w) : Plain (v ++ w) := by
  refine ⟨by rw [finish_append, hv.finish, hw.finish], ?_⟩
  rw [texts_append (by rw [hv.finish]; exact settles_code w), hv.texts, hw.texts]
  rfl

theorem plain_of_calm {w : List Char} (hw : Grammar.calm w = true) : Plain w := by
  fun_induction Grammar.calm w with
  | case1 => exact .nil
  | case2 c =>
    simp only [Bool.and_eq_true, Bool.not_eq_true', bne_iff_ne] at hw
    have hopens : opens c = .code := by simp [opens, hw.1, hw.2]
    exact ⟨hopens, by simp [Scan.texts, next, closing, pending, hopens]⟩
  | case3 c d cs ih =>
    simp only [Bool.and_eq_true, Bool.or_eq_true, Bool.not_eq_true', bne_iff_ne] at hw
    obtain ⟨⟨hq, hslash⟩, hcs⟩ := hw
    obtain ⟨hfinish, htexts⟩ := ih hcs
    by_cases hc : c = '/'
    · have hsettles : Settles .slash (d :: cs) := by
        refine settles_cons.2 ?_
        simpa [settles, hc] using hslash
      subst hc
      refine ⟨?_, ?_⟩
      · rw [finish_cons]
        exact (finish_of_settles hsettles (by simp)).trans hfinish
      · rw [Scan.texts]
        exact (texts_of_settles hsettles).trans htexts
    · have hopens : opens c = .code := by simp [opens, hq, hc]
      refine ⟨?_, ?_⟩
      · rw [finish_cons, next, hopens, hfinish]
      · rw [Scan.texts, next, hopens, htexts]
        rfl

end Scan

end Transcribe.Text
