/-
  Transcribe.Proofs.Gap — what stands between two tokens, and walking in it.

  A gap is a run of blanks, line breaks and comments. Taking one of these off the head of a
  text is a `Skip`, which never has a choice; walking over space is a chain of skips (`Skips`).
  `InGap` says of two places that only space and comments stand between them. Walking back goes by
  the table of comments: at the end of an entry it goes to the entry's start. That is right because
  every entry is `Commented`: walking forward from where it starts skips just that comment. The
  pass that makes the table keeps this up, and `Pending` is what it owes while inside a comment.
  - `skipSpace_eq_of_inGap`: from anywhere inside a gap, walking forward ends where walking from
    its start does.
  - `inGap_skipSpaceBack`: walking back stays inside the gap, whatever the comment table holds.
  - `inGap_leadStart`: so does the space that belongs to what follows.
-/

import Transcribe.Text.Source
import Mathlib.Logic.Relation

namespace Transcribe.Text

open Relation (ReflTransGen)

variable {c : Char} {cs cs' : List Char} {o x : Nat}

/-! ## Skips -/

def afterLine : List Char → List Char
  | [] => []
  | c :: cs => if isBreak c then c :: cs else afterLine cs

def afterBlock : List Char → List Char
  | '*' :: '/' :: cs => cs
  | _ :: cs => afterBlock cs
  | [] => []

inductive Skip : List Char → List Char → Prop
  | space {c : Char} (cs : List Char) : (isBlank c || isBreak c) = true → Skip (c :: cs) cs
  | line (cs : List Char) : Skip ('/' :: '/' :: cs) (afterLine cs)
  | block (cs : List Char) : Skip ('/' :: '*' :: cs) (afterBlock cs)

abbrev Skips : List Char → List Char → Prop := ReflTransGen Skip

theorem utf8Size_of_space (h : (isBlank c || isBreak c) = true) : c.utf8Size = 1 := by
  simp only [isBlank, isBreak, Bool.or_eq_true, beq_iff_eq] at h
  rcases h with ((rfl | rfl) | rfl) | rfl | rfl <;> rfl

theorem ne_slash_of_space (h : (isBlank c || isBreak c) = true) : c ≠ '/' := by
  rintro rfl
  revert h
  decide

theorem utf8Size_of_break (h : isBreak c = true) : c.utf8Size = 1 :=
  utf8Size_of_space (by simp [h])

theorem skip_unique {a b : List Char} (ha : Skip cs a) (hb : Skip cs b) : a = b := by
  cases ha with
  | space cs h =>
    cases hb with
    | space _ _ => rfl
    | line _ => exact absurd rfl (ne_slash_of_space h)
    | block _ => exact absurd rfl (ne_slash_of_space h)
  | line cs =>
    cases hb with
    | space _ h => exact absurd rfl (ne_slash_of_space h)
    | line _ => rfl
  | block cs =>
    cases hb with
    | space _ h => exact absurd rfl (ne_slash_of_space h)
    | block _ => rfl

/-- Of two ends of chains of skips from one text, one lies on the way to the other. -/
theorem skips_total {a b : List Char} (ha : Skips cs a) (hb : Skips cs b) :
    Skips a b ∨ Skips b a :=
  ReflTransGen.total_of_right_unique (fun _ _ _ h h' => skip_unique h h') ha hb

theorem afterLine_suffix (cs : List Char) : afterLine cs <:+ cs := by
  induction cs with
  | nil => exact List.suffix_rfl
  | cons c cs ih =>
    rw [afterLine]
    split
    · exact List.suffix_rfl
    · exact ih.trans (List.suffix_cons c cs)

theorem afterBlock_suffix (cs : List Char) : afterBlock cs <:+ cs := by
  fun_induction afterBlock cs with
  | case1 cs => exact (List.suffix_cons '/' cs).trans (List.suffix_cons '*' _)
  | case2 c cs _ ih => exact ih.trans (List.suffix_cons c cs)
  | case3 => exact List.suffix_rfl

theorem skip_suffix (h : Skip cs cs') : ∃ a, a ≠ [] ∧ cs = a ++ cs' := by
  cases h with
  | space cs' h => exact ⟨[_], by simp, rfl⟩
  | line cs =>
    obtain ⟨a, ha⟩ := afterLine_suffix cs
    exact ⟨'/' :: '/' :: a, by simp, by simp [ha]⟩
  | block cs =>
    obtain ⟨a, ha⟩ := afterBlock_suffix cs
    exact ⟨'/' :: '*' :: a, by simp, by simp [ha]⟩

theorem skips_suffix (h : Skips cs cs') : ∃ a, cs = a ++ cs' := by
  induction h with
  | refl => exact ⟨[], rfl⟩
  | tail _ hs ih =>
    obtain ⟨a, rfl⟩ := ih
    obtain ⟨b, -, rfl⟩ := skip_suffix hs
    exact ⟨a ++ b, by simp⟩

/-! ## The length of a gap -/

theorem spaceLength_space (cs : List Char) (h : (isBlank c || isBreak c) = true) :
    spaceLength false .space (c :: cs) = 1 + spaceLength false .space cs := by
  have hc := ne_slash_of_space h
  rw [spaceLength]
  · rcases Bool.or_eq_true _ _ ▸ h with h | h <;> simp [h]
  · rintro cs' hc' -; exact hc hc'
  · rintro cs' hc' -; exact hc hc'

theorem spaceLength_line (b : Bool) (cs : List Char) :
    spaceLength b .line cs + byteLength (afterLine cs)
      = byteLength cs + spaceLength b .space (afterLine cs) := by
  induction cs with
  | nil => simp [spaceLength, afterLine]
  | cons c cs ih =>
    by_cases hc : isBreak c = true
    · have hslash := ne_slash_of_space (c := c) (by simp [hc])
      have hsame : spaceLength b .space (c :: cs) = spaceLength b .line (c :: cs) := by
        rw [spaceLength, spaceLength, if_pos hc, if_pos hc]
        · rintro cs' hc' -; exact hslash hc'
        · rintro cs' hc' -; exact hslash hc'
      rw [afterLine, if_pos hc, hsame]
      omega
    · rw [afterLine, if_neg hc, spaceLength, if_neg hc, byteLength_cons]
      omega

theorem spaceLength_block (b : Bool) (cs : List Char) :
    spaceLength b .block cs + byteLength (afterBlock cs)
      = byteLength cs + spaceLength b .space (afterBlock cs) := by
  fun_induction afterBlock cs with
  | case1 cs =>
    have h1 : '*'.utf8Size = 1 := rfl
    have h2 : '/'.utf8Size = 1 := rfl
    simp only [spaceLength, byteLength_cons]; omega
  | case2 c cs hc ih =>
    rw [spaceLength, byteLength_cons]
    · omega
    · simpa using hc
  | case3 => simp [spaceLength]

/-- A skip and the length of what is left add up to the length of the gap. -/
theorem spaceLength_of_skip (h : Skip cs cs') :
    spaceLength false .space cs + byteLength cs' = byteLength cs + spaceLength false .space cs' := by
  have h1 : '*'.utf8Size = 1 := rfl
  have h2 : '/'.utf8Size = 1 := rfl
  cases h with
  | space cs' h =>
    rw [spaceLength_space cs' h, byteLength_cons, utf8Size_of_space h]
    omega
  | line cs =>
    have := spaceLength_line false cs
    simp only [spaceLength, byteLength_cons]
    omega
  | block cs =>
    have := spaceLength_block false cs
    simp only [spaceLength, byteLength_cons]
    omega

theorem spaceLength_of_skips (h : Skips cs cs') :
    spaceLength false .space cs + byteLength cs' = byteLength cs + spaceLength false .space cs' := by
  induction h with
  | refl => omega
  | tail _ hs ih =>
    have := spaceLength_of_skip hs
    omega

/-- The run of space and comments that `spaceLength` measures is a chain of skips. -/
theorem skips_spaceLength (b : Bool) (i : Inside) (cs : List Char) :
    ∃ cs', byteLength cs = spaceLength b i cs + byteLength cs' ∧
      match i with
      | .space => Skips cs cs'
      | .line => Skips (afterLine cs) cs'
      | .block => Skips (afterBlock cs) cs' := by
  have h1 : '*'.utf8Size = 1 := rfl
  have h2 : '/'.utf8Size = 1 := rfl
  fun_induction spaceLength b i cs with
  | case1 cs ih =>
    obtain ⟨cs', hl, hs⟩ := ih
    exact ⟨cs', by simp only [byteLength_cons]; omega, .head (.line cs) hs⟩
  | case2 cs ih =>
    obtain ⟨cs', hl, hs⟩ := ih
    exact ⟨cs', by simp only [byteLength_cons]; omega, .head (.block cs) hs⟩
  | case3 c cs _ _ hb _ => exact ⟨c :: cs, by simp, .refl⟩
  | case4 c cs _ _ hb hn ih =>
    obtain ⟨cs', hl, hs⟩ := ih
    have hc := utf8Size_of_break hb
    exact ⟨cs', by simp only [byteLength_cons]; omega, .head (.space cs (by simp [hb])) hs⟩
  | case5 c cs _ _ _ hb ih =>
    obtain ⟨cs', hl, hs⟩ := ih
    have hc := utf8Size_of_space (c := c) (by simp [hb])
    exact ⟨cs', by simp only [byteLength_cons]; omega, .head (.space cs (by simp [hb])) hs⟩
  | case6 c cs _ _ _ _ => exact ⟨c :: cs, by simp, .refl⟩
  | case7 c cs hb _ => exact ⟨c :: cs, by simp, by simp only [afterLine, hb, if_true]; exact .refl⟩
  | case8 c cs hb _ ih =>
    obtain ⟨cs', hl, hs⟩ := ih
    have hc := utf8Size_of_break hb
    refine ⟨cs', by simp only [byteLength_cons]; omega, ?_⟩
    simp only [afterLine, hb, if_true]
    exact .head (.space cs (by simp [hb])) hs
  | case9 c cs hb ih =>
    obtain ⟨cs', hl, hs⟩ := ih
    refine ⟨cs', by simp only [byteLength_cons]; omega, ?_⟩
    rwa [afterLine, if_neg hb]
  | case10 cs ih =>
    obtain ⟨cs', hl, hs⟩ := ih
    exact ⟨cs', by simp only [byteLength_cons]; omega, hs⟩
  | case11 c cs hc ih =>
    obtain ⟨cs', hl, hs⟩ := ih
    refine ⟨cs', by simp only [byteLength_cons]; omega, ?_⟩
    rwa [afterBlock]
    simpa using hc
  | case12 i => exact ⟨[], by simp, by cases i <;> exact .refl⟩

theorem skips_blanks {bs : List Char} (cs : List Char) (h : ∀ b ∈ bs, isBlank b = true) :
    Skips (bs ++ cs) cs := by
  induction bs with
  | nil => exact .refl
  | cons b bs ih =>
    simp only [List.forall_mem_cons] at h
    exact .head (.space _ (by simp [h.1])) (ih h.2)

theorem byteLength_blanks {bs : List Char} (h : ∀ b ∈ bs, isBlank b = true) :
    byteLength bs = bs.length := by
  induction bs with
  | nil => rfl
  | cons b bs ih =>
    simp only [List.forall_mem_cons] at h
    rw [byteLength_cons, utf8Size_of_space (by simp [h.1]), ih h.2, List.length_cons]
    omega

/-- Whole lines of blanks are a chain of skips; `bs` are the blanks of the first line that have
been passed already. -/
theorem skips_blankLinesLength (bs cs : List Char) (h : ∀ b ∈ bs, isBlank b = true) :
    ∃ cs', byteLength (bs ++ cs) = blankLinesLength bs.length cs + byteLength cs' ∧
      Skips (bs ++ cs) cs' := by
  have hbs := byteLength_blanks h
  generalize hp : bs.length = passed
  fun_induction blankLinesLength passed cs generalizing bs with
  | case1 passed cs ih =>
    obtain ⟨cs', hl, hs⟩ := ih [] (by simp) rfl rfl
    have hr : '\r'.utf8Size = 1 := rfl
    have hn : '\n'.utf8Size = 1 := rfl
    refine ⟨cs', ?_, (skips_blanks _ h).trans (.head (.space _ rfl) (.head (.space _ rfl) hs))⟩
    simp only [byteLength_append, byteLength_cons, List.nil_append] at hl ⊢
    omega
  | case2 passed c cs _ hb ih =>
    obtain ⟨cs', hl, hs⟩ := ih [] (by simp) rfl rfl
    refine ⟨cs', ?_, (skips_blanks _ h).trans (.head (.space _ (by simp [hb])) hs)⟩
    simp only [byteLength_append, byteLength_cons, List.nil_append, utf8Size_of_break hb] at hl ⊢
    omega
  | case3 passed c cs _ hb hk ih =>
    have hc : ∀ b ∈ bs ++ [c], isBlank b = true := by
      intro b hb'
      rcases List.mem_append.1 hb' with hb' | hb'
      · exact h b hb'
      · rw [List.mem_singleton.1 hb']; exact hk
    obtain ⟨cs', hl, hs⟩ := ih (bs ++ [c]) hc (byteLength_blanks hc) (by simp [hp])
    exact ⟨cs', by simpa using hl, by simpa using hs⟩
  | case4 passed c cs _ hb hk => exact ⟨_, by simp, .refl⟩
  | case5 passed => exact ⟨_, by simp, .refl⟩

/-! ## Boundaries -/

namespace Source

variable (s : Source)

def Boundary (o : Nat) : Prop := ∃ cs, s.rest? o = some cs

variable {s}

theorem rest?_eq_some_iff :
    s.rest? o = some cs ↔ ∃ a, s.chars = a ++ cs ∧ o = byteLength a := by
  constructor
  · exact eq_append_of_dropBytes?
  · rintro ⟨a, ha, rfl⟩
    rw [rest?, ha, dropBytes?_byteLength_append]

theorem rest?_add {a : List Char} (h : s.rest? o = some (a ++ cs)) :
    s.rest? (o + byteLength a) = some cs := by
  obtain ⟨b, hb, rfl⟩ := rest?_eq_some_iff.1 h
  exact rest?_eq_some_iff.2 ⟨b ++ a, by simp [hb], by simp⟩

theorem rest?_cons (h : s.rest? o = some (c :: cs)) :
    s.rest? (o + c.utf8Size) = some cs :=
  rest?_add (a := [c]) h

theorem add_byteLength (h : s.rest? o = some cs) :
    o + byteLength cs = s.size := by
  obtain ⟨a, ha, rfl⟩ := rest?_eq_some_iff.1 h
  rw [s.size_eq, ha, byteLength_append]

theorem le_size (h : s.Boundary o) : o ≤ s.size := by
  obtain ⟨cs, hc⟩ := h
  have := add_byteLength hc
  omega

theorem boundary_zero : s.Boundary 0 := ⟨s.chars, dropBytes?_zero _⟩

/-- The texts behind two boundaries, the earlier of which has the later at its end. -/
theorem slice?_eq_some {a b : Nat} {r : List Char} (h : s.rest? a = some (cs ++ r))
    (hb : b = a + byteLength cs) : s.slice? ⟨a, b⟩ = some cs := by
  obtain ⟨d, hd, rfl⟩ := rest?_eq_some_iff.1 h
  rw [slice?, hd, hb, ← List.append_assoc, slice?_append]

/-! ## Inside a gap -/

def InGap (s : Source) (o x : Nat) : Prop :=
  ∃ cs cs', s.rest? o = some cs ∧ s.rest? x = some cs' ∧ Skips cs cs'

theorem InGap.refl (h : s.Boundary o) : s.InGap o o := by
  obtain ⟨cs, hc⟩ := h
  exact ⟨cs, cs, hc, hc, .refl⟩

theorem InGap.trans {y : Nat} (h : s.InGap o x) (h' : s.InGap x y) : s.InGap o y := by
  obtain ⟨cs, ds, ho, hx, hs⟩ := h
  obtain ⟨ds', es, hx', hy, hs'⟩ := h'
  obtain rfl : ds = ds' := by rw [hx] at hx'; exact Option.some.inj hx'
  exact ⟨cs, es, ho, hy, hs.trans hs'⟩

theorem InGap.boundary (h : s.InGap o x) : s.Boundary x := by
  obtain ⟨_, cs', -, hx, -⟩ := h
  exact ⟨cs', hx⟩

theorem InGap.le (h : s.InGap o x) : o ≤ x := by
  obtain ⟨cs, cs', ho, hx, hs⟩ := h
  obtain ⟨a, rfl⟩ := skips_suffix hs
  have h1 := add_byteLength ho
  have h2 := add_byteLength hx
  rw [byteLength_append] at h1
  omega

/-- A chain of skips at `o` that leaves `cs'` ends where `cs'` begins. -/
theorem inGap_add {n : Nat} (ho : s.rest? o = some cs) (hs : Skips cs cs')
    (hn : byteLength cs = n + byteLength cs') : s.InGap o (o + n) := by
  obtain ⟨a, rfl⟩ := skips_suffix hs
  obtain rfl : n = byteLength a := by rw [byteLength_append] at hn; omega
  exact ⟨_, cs', ho, rest?_add ho, hs⟩

theorem inGap_skipSpace (b : Bool) (h : s.Boundary o) : s.InGap o (s.skipSpace b o) := by
  obtain ⟨cs, hc⟩ := h
  obtain ⟨cs', hl, hs⟩ := skips_spaceLength b .space cs
  simpa only [skipSpace, forward, hc] using inGap_add hc hs hl

/-- From anywhere in a gap, walking forward ends where walking from its start does. -/
theorem skipSpace_eq_of_inGap (h : s.InGap o x) :
    s.skipSpace false x = s.skipSpace false o := by
  obtain ⟨cs, cs', ho, hx, hs⟩ := h
  have h1 := add_byteLength ho
  have h2 := add_byteLength hx
  have h3 := spaceLength_of_skips hs
  simp only [skipSpace, forward, ho, hx]
  omega

theorem skipSpace_skipSpace (b : Bool) (h : s.Boundary o) :
    s.skipSpace false (s.skipSpace b o) = s.skipSpace false o :=
  skipSpace_eq_of_inGap (inGap_skipSpace b h)

theorem le_skipSpace (b : Bool) (o : Nat) : o ≤ s.skipSpace b o := by
  unfold skipSpace forward
  split <;> omega

/-- Of two places in one gap, the later lies in the gap of the earlier. -/
theorem inGap_of_le {y : Nat} (hx : s.InGap o x) (hy : s.InGap o y) (h : x ≤ y) :
    s.InGap x y := by
  obtain ⟨cs, ds, ho, hx, hs⟩ := hx
  obtain ⟨cs', es, ho', hy, hs'⟩ := hy
  obtain rfl : cs = cs' := by rw [ho] at ho'; exact Option.some.inj ho'
  rcases skips_total hs hs' with h' | h'
  · exact ⟨ds, es, hx, hy, h'⟩
  · -- then `y ≤ x` as well, so the two are one place
    have hle : y ≤ x := InGap.le ⟨es, ds, hy, hx, h'⟩
    obtain rfl : x = y := by omega
    exact .refl ⟨ds, hx⟩

theorem inGap_skipBreak (h : s.Boundary o) : s.InGap o (s.skipBreak o) := by
  obtain ⟨cs, hc⟩ := h
  simp only [skipBreak, forward, hc]
  fun_cases breakLength cs with
  | case1 cs =>
    have hr : '\r'.utf8Size = 1 := rfl
    have hn : '\n'.utf8Size = 1 := rfl
    exact inGap_add hc (.head (.space _ rfl) (.single (.space cs rfl))) (by simp [hr, hn]; omega)
  | case2 c cs _ hb =>
    exact inGap_add hc (.single (.space cs (by simp [hb]))) (by simp [utf8Size_of_break hb])
  | case3 c cs _ hb => exact .refl ⟨_, hc⟩
  | case4 => exact .refl ⟨_, hc⟩

theorem inGap_skipBlankLines (h : s.Boundary o) : s.InGap o (s.skipBlankLines o) := by
  obtain ⟨cs, hc⟩ := h
  obtain ⟨cs', hl, hs⟩ := skips_blankLinesLength [] cs (by simp)
  simp only [skipBlankLines, forward, hc]
  exact inGap_add hc hs hl

/-! ## Walking back -/

/-- Where a comment of the table stands, walking forward skips just that comment. -/
def Commented (s : Source) (c : Span) : Prop :=
  ∃ cs cs', s.rest? c.start = some cs ∧ s.rest? c.stop = some cs' ∧ Skip cs cs'

/-- What a region of the pass that looks for comments owes to the text before it: a comment was
opened at its start and ends where the comment at hand does. -/
def Pending (s : Source) (cs : List Char) : Region → Prop
  | .line start => ∃ r, s.rest? start = some ('/' :: '/' :: r) ∧ afterLine r = afterLine cs
  | .block start => ∃ r, s.rest? start = some ('/' :: '*' :: r) ∧ afterBlock r = afterBlock cs
  | _ => True

theorem commented_of_mem_commentsFrom {r : Region} {c : Span} (ho : s.rest? o = some cs)
    (hr : s.Pending cs r) (hc : c ∈ commentsFrom r o cs) :
    s.Commented c := by
  -- `hr` goes along with the region: it is set where a comment opens and used up where one ends.
  fun_induction commentsFrom r o cs with
  | case1 o cs ih => exact ih (rest?_add (a := ['/', '/']) ho) ⟨cs, ho, rfl⟩ hc
  | case2 o cs ih => exact ih (rest?_add (a := ['/', '*']) ho) ⟨cs, ho, rfl⟩ hc
  | case3 o d cs _ _ ih =>
    refine ih (rest?_cons ho) ?_ hc
    split <;> trivial
  | case4 start o d cs hb ih =>
    rcases List.mem_cons.1 hc with rfl | hc
    · obtain ⟨r, hs, hr⟩ := hr
      refine ⟨_, _, hs, ho, ?_⟩
      have : afterLine (d :: cs) = d :: cs := by rw [afterLine, if_pos hb]
      rw [← this, ← hr]
      exact .line r
    · exact ih (rest?_cons ho) trivial hc
  | case5 start o d cs hb ih =>
    obtain ⟨r, hs, hr⟩ := hr
    exact ih (rest?_cons ho) ⟨r, hs, by rw [hr, afterLine, if_neg hb]⟩ hc
  | case6 start o cs ih =>
    have ho' : s.rest? (o + 2) = some cs := rest?_add (a := ['*', '/']) ho
    rcases List.mem_cons.1 hc with rfl | hc
    · obtain ⟨r, hs, hr⟩ := hr
      refine ⟨_, _, hs, ho', ?_⟩
      rw [show cs = afterBlock r from hr.symm]
      exact .block r
    · exact ih ho' trivial hc
  | case7 start o d cs hd ih =>
    obtain ⟨r, hs, hr⟩ := hr
    refine ih (rest?_cons ho) ⟨r, hs, ?_⟩ hc
    rw [hr, afterBlock]
    simpa using hd
  | case8 quote o d cs ih => exact ih (rest?_cons (rest?_cons ho)) trivial hc
  | case9 quote o d cs _ ih =>
    refine ih (rest?_cons ho) ?_ hc
    split <;> trivial
  | case10 start o =>
    obtain rfl := List.mem_singleton.1 hc
    obtain ⟨r, hs, hr⟩ := hr
    refine ⟨_, _, hs, ho, ?_⟩
    rw [show ([] : List Char) = afterLine r from hr.symm]
    exact .line r
  | case11 start o =>
    obtain rfl := List.mem_singleton.1 hc
    obtain ⟨r, hs, hr⟩ := hr
    refine ⟨_, _, hs, ho, ?_⟩
    rw [show ([] : List Char) = afterBlock r from hr.symm]
    exact .block r
  | case12 => cases hc
  | case13 => cases hc

/-- Every comment of the table is one that walking forward skips. -/
theorem commented_of_mem_comments {c : Span} (hc : c ∈ s.comments) : s.Commented c := by
  rw [s.comments_eq] at hc
  exact commented_of_mem_commentsFrom (r := .code) (dropBytes?_zero _) trivial hc

theorem charBefore?_eq_some (h : charBefore? o cs = some c) :
    ∃ a r, cs = a ++ c :: r ∧ o = byteLength a + c.utf8Size := by
  induction cs generalizing o with
  | nil => simp [charBefore?] at h
  | cons d cs ih =>
    rw [charBefore?] at h
    split at h
    · cases h
    · split at h
      · obtain rfl := Option.some.inj h
        exact ⟨[], cs, rfl, by simpa⟩
      · obtain ⟨a, r, rfl, ho⟩ := ih h
        exact ⟨d :: a, r, rfl, by simp only [byteLength_cons]; omega⟩

/-- One step back crosses a comment or a character of space. -/
theorem inGap_stepBack (h : s.Boundary o) : s.InGap (s.stepBack o) o := by
  unfold stepBack
  split
  · rename_i start hs
    obtain ⟨c, hc, rfl⟩ := Option.map_eq_some_iff.1 hs
    obtain rfl : c.stop = o := by simpa using List.find?_some hc
    obtain ⟨cs, cs', hs, ho, hk⟩ := commented_of_mem_comments (List.mem_of_find?_eq_some hc)
    exact ⟨cs, cs', hs, ho, .single hk⟩
  · split
    · rename_i c hc
      split
      · rename_i hb
        obtain ⟨a, r, hcs, rfl⟩ := charBefore?_eq_some hc
        have ha : s.rest? (byteLength a) = some (c :: r) := rest?_eq_some_iff.2 ⟨a, hcs, rfl⟩
        rw [utf8Size_of_space hb, Nat.add_sub_cancel]
        exact inGap_add ha (.single (.space r hb)) (by rw [byteLength_cons, utf8Size_of_space hb])
      · exact .refl h
    · exact .refl h

theorem boundary_of_inGap_left (h : s.InGap o x) : s.Boundary o := by
  obtain ⟨cs, _, ho, -, -⟩ := h
  exact ⟨cs, ho⟩

theorem inGap_stepsBack {n : Nat} (h : s.Boundary o) : s.InGap (s.stepsBack n o) o := by
  induction n generalizing o with
  | zero => exact .refl h
  | succ n ih =>
    rw [stepsBack]
    split
    · have hb := inGap_stepBack h
      exact (ih (boundary_of_inGap_left hb)).trans hb
    · exact .refl h

/-- Walking back stays inside the gap, whatever the comment table holds. -/
theorem inGap_skipSpaceBack (h : s.Boundary o) : s.InGap (s.skipSpaceBack o) o := by
  rw [skipSpaceBack, Nat.min_eq_left (le_size h)]
  exact inGap_stepsBack h

/-- The space and comments that belong to what starts at `o` end there. -/
theorem inGap_leadStart (h : s.Boundary o) : s.InGap (s.leadStart o) o := by
  have hb := inGap_skipSpaceBack h
  have hl := inGap_skipSpace true (boundary_of_inGap_left hb)
  have hn := hl.trans (inGap_skipBreak hl.boundary)
  unfold leadStart
  rcases Nat.le_total o (s.skipBreak (s.skipSpace true (s.skipSpaceBack o))) with hle | hle
  · rw [Nat.min_eq_left hle]
    exact .refl h
  · rw [Nat.min_eq_right hle]
    exact inGap_of_le hn hb hle

end Source

end Transcribe.Text
