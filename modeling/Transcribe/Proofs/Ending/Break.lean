/-
  Transcribe.Proofs.Ending.Break — the line breaks of a text, and cuts that keep them whole.

  A break is `\n`, `\r\n` or a lone `\r`, so a cut between `\r` and `\n` makes two breaks of one
  (`Splits`). All other cuts leave the breaks as they are, and walks over space end at such cuts
  only: where a walk stops before a line feed it stops at breaks, and no carriage return is before
  it (`Clean`). A text is `Even` if all its breaks are the same.
  - `breaks_append`: the breaks of two texts put together.
  - `breaks_dedent`, `breaks_spread`: copied space has the breaks of the source.
  - `Source.Whole`: offsets that are not inside a break.
-/

import Transcribe.Proofs.Lead
import Transcribe.Proofs.Place
import Transcribe.Proofs.CopiedComments
import Transcribe.Proofs.Spelling

namespace Transcribe.Text

variable {x y cs : List Char}

def breaks : List Char → List String
  | '\r' :: '\n' :: cs => "\r\n" :: breaks cs
  | c :: cs =>
    if c == '\r' then "\r" :: breaks cs else if c == '\n' then "\n" :: breaks cs else breaks cs
  | [] => []

example : breaks "a\r\nb\rc\n\rd".toList = ["\r\n", "\r", "\n", "\r"] := by decide

def Even (e : String) (cs : List Char) : Prop := ∀ b ∈ breaks cs, b = e

def Splits (x y : List Char) : Prop := x.getLast? = some '\r' ∧ y.head? = some '\n'

@[simp] theorem breaks_nil : breaks [] = [] := rfl

/-- The breaks of a text by its first character and the breaks behind it. -/
theorem breaks_cons (c : Char) (cs : List Char) :
    breaks (c :: cs) =
      if c = '\r' then
        if cs.head? = some '\n' then "\r\n" :: (breaks cs).tail else "\r" :: breaks cs
      else if c = '\n' then "\n" :: breaks cs else breaks cs := by
  by_cases hpair : c = '\r' ∧ cs.head? = some '\n'
  · obtain ⟨rfl, hhead⟩ := hpair
    obtain ⟨cs, rfl⟩ := List.head?_eq_some_iff.1 hhead
    simp [breaks]
  · rw [breaks]
    · by_cases hc : c = '\r'
      · simp [hc, show cs.head? ≠ some '\n' from fun h => hpair ⟨hc, h⟩]
      · simp [hc]
    · rintro cs' rfl rfl
      exact hpair ⟨rfl, rfl⟩

theorem breaks_append (h : ¬ Splits x y) :
    breaks (x ++ y) = breaks x ++ breaks y := by
  induction x with
  | nil => rfl
  | cons c x ih =>
    cases x with
    | nil =>
      by_cases hc : c = '\r'
      · have hy : y.head? ≠ some '\n' := fun hy => h ⟨by simp [hc], hy⟩
        simp [breaks_cons, hc, hy]
      · by_cases hn : c = '\n' <;> simp [breaks_cons, hc, hn]
    | cons d x =>
      have ih := ih fun hs => h ⟨by simpa using hs.1, hs.2⟩
      have hne : d = '\n' → breaks (d :: x) ≠ [] := by
        rintro rfl
        simp [breaks_cons]
      rw [List.cons_append, breaks_cons c, ih, breaks_cons c (d :: x)]
      have hhead : (d :: x ++ y).head? = (d :: x).head? := rfl
      rw [hhead]
      split
      · split
        · rename_i hd
          rw [List.tail_append_of_ne_nil (hne (by simpa using hd)), List.cons_append]
        · rfl
      · split <;> rfl

theorem breaks_of_getLast? (h : x.getLast? = some '\r') : "\r" ∈ breaks x := by
  obtain ⟨x, rfl⟩ := List.getLast?_eq_some_iff.1 h
  rw [breaks_append (by simp [Splits])]
  simp [breaks_cons]

namespace Even

variable {e : String} {x y : List Char}

theorem nil : Even e [] := by simp [Even]

theorem append (hx : Even e x) (hy : Even e y) : Even e (x ++ y) := by
  have hsplit : ¬ Splits x y := by
    rintro ⟨hlast, hhead⟩
    obtain ⟨y, rfl⟩ := List.head?_eq_some_iff.1 hhead
    have hcr := hx _ (breaks_of_getLast? hlast)
    have hlf : "\n" = e := hy _ (by simp [breaks_cons])
    rw [← hcr] at hlf
    exact absurd hlf (by decide)
  intro b hb
  rw [breaks_append hsplit] at hb
  exact (List.mem_append.1 hb).elim (hx b) (hy b)

theorem of_append (h : Even e (x ++ y)) (hsplit : ¬ Splits x y) : Even e x ∧ Even e y := by
  unfold Even at h
  rw [breaks_append hsplit] at h
  exact ⟨fun b hb => h b (by simp [hb]), fun b hb => h b (by simp [hb])⟩

/-- A text without breaks. -/
theorem of_plain (h : ∀ c ∈ x, isBreak c = false) : Even e x := by
  have hnone : breaks x = [] := by
    induction x with
    | nil => rfl
    | cons c x ih =>
      have hc := h c (by simp)
      have hcr : c ≠ '\r' := by rintro rfl; cases hc
      have hlf : c ≠ '\n' := by rintro rfl; cases hc
      rw [breaks_cons, if_neg hcr, if_neg hlf, ih fun d hd => h d (by simp [hd])]
  simp [Even, hnone]

end Even

/-- A break is the only break of itself. -/
theorem breaks_of_mem {b : String} (h : b ∈ breaks cs) :
    breaks b.toList = [b] := by
  induction cs with
  | nil => cases h
  | cons c cs ih =>
    rw [breaks_cons] at h
    split at h
    · split at h
      · rcases List.mem_cons.1 h with rfl | h
        · decide
        · exact ih (List.mem_of_mem_tail h)
      · rcases List.mem_cons.1 h with rfl | h
        · decide
        · exact ih h
    · split at h
      · rcases List.mem_cons.1 h with rfl | h
        · decide
        · exact ih h
      · exact ih h

/-- The break that is written is the first of the text. -/
theorem terminator_mem (h : breaks cs ≠ []) : terminator cs ∈ breaks cs := by
  fun_induction terminator cs with
  | case1 cs => simp [breaks_cons]
  | case2 c cs hne hc =>
    have hhead : cs.head? ≠ some '\n' := by
      intro hhead
      obtain ⟨cs, rfl⟩ := List.head?_eq_some_iff.1 hhead
      exact hne cs (by simpa using hc) rfl
    simp [breaks_cons, show c = '\r' by simpa using hc, hhead]
  | case3 c cs hne hc hn =>
    simp [breaks_cons, show c = '\n' by simpa using hn]
  | case4 c cs hne hc hn ih =>
    have hcons : breaks (c :: cs) = breaks cs := by
      rw [breaks_cons, if_neg (by simpa using hc), if_neg (by simpa using hn)]
    rw [hcons] at h ⊢
    exact ih h
  | case5 => exact absurd rfl h

theorem Even.terminator {e : String} (h : Even e cs) (hne : breaks cs ≠ []) :
    Even e (terminator cs).toList := by
  have hmem := terminator_mem hne
  intro b hb
  rw [breaks_of_mem hmem, List.mem_singleton] at hb
  rw [hb]
  exact h _ hmem

/-! ## Copied space -/

theorem breaks_dedent (r : Ruler) (n : Nat) (k : Option Nat) (cs : List Char) :
    breaks (dedent r n k cs) = breaks cs := by
  induction cs generalizing k with
  | nil => cases k <;> rfl
  | cons c cs ih =>
    have hkept : breaks (c :: dedent r n (if c == '\n' then some 0 else none) cs)
        = breaks (c :: cs) := by
      have hhead : (dedent r n none cs).head? = cs.head? := by cases cs <;> rfl
      rw [breaks_cons, breaks_cons c cs, ih]
      by_cases hc : c = '\r'
      · simp [hc, hhead]
      · simp [hc]
    cases k with
    | none => exact hkept
    | some column =>
      rw [dedent]
      split
      · rename_i hdrop
        have hc : c = ' ' ∨ c = '\t' := by
          simp only [Bool.and_eq_true, Bool.or_eq_true, beq_iff_eq] at hdrop
          exact hdrop.2
        rw [ih, breaks_cons]
        rcases hc with rfl | rfl <;> simp
      · exact hkept

theorem breaks_spread {w : List Char} (h : Spread x w) : breaks w = breaks x := by
  have hblanks : ∀ (n : Nat) (w : List Char), breaks (List.replicate n ' ' ++ w) = breaks w := by
    intro n w
    induction n with
    | zero => rfl
    | succ n ih => simp [List.replicate_succ, breaks_cons, ih]
  induction h with
  | nil => rfl
  | @char c x w h ih =>
    have hhead : w.head? = some '\n' ↔ x.head? = some '\n' := by
      cases h with
      | nil => rfl
      | char _ => rfl
      | tab _ => simp [List.replicate_succ]
    simp only [breaks_cons, ih, hhead]
  | tab _ ih => simp [hblanks, ih, breaks_cons]

/-! ## Offsets -/

namespace Source

variable {s : Source} {o : Nat}

def Whole (s : Source) (o : Nat) : Prop :=
  ∀ x y, s.chars = x ++ y → o = byteLength x → ¬ Splits x y

theorem whole_zero : s.Whole 0 := by
  rintro x y - hx ⟨hlast, -⟩
  cases x with
  | nil => cases hlast
  | cons c x =>
    have := c.utf8Size_pos
    rw [byteLength_cons] at hx
    omega

theorem whole_min {a b : Nat} (ha : s.Whole a) (hb : s.Whole b) : s.Whole (min a b) := by
  rcases Nat.le_total a b with h | h
  · rwa [Nat.min_eq_left h]
  · rwa [Nat.min_eq_right h]

theorem whole_max {a b : Nat} (ha : s.Whole a) (hb : s.Whole b) : s.Whole (max a b) := by
  rcases Nat.le_total a b with h | h
  · rwa [Nat.max_eq_right h]
  · rwa [Nat.max_eq_left h]

/-- What stands before and behind a boundary is given by its offset. -/
theorem split_unique {a b : List Char} (h : s.chars = x ++ y) (h' : s.chars = a ++ b)
    (hlen : byteLength x = byteLength a) : x = a ∧ y = b := by
  have hdrop : dropBytes? (byteLength x) s.chars = some y := by
    rw [h, dropBytes?_byteLength_append]
  rw [hlen, h', dropBytes?_byteLength_append] at hdrop
  obtain rfl := Option.some.inj hdrop
  rw [h] at h'
  exact ⟨List.append_cancel_right h', rfl⟩

theorem whole_iff (h : s.chars = x ++ y) :
    s.Whole (byteLength x) ↔ ¬ Splits x y := by
  refine ⟨fun hw => hw x y h rfl, fun hn a b hab hlen => ?_⟩
  obtain ⟨rfl, rfl⟩ := split_unique h hab hlen
  exact hn

/-- An offset from which the walk over text `w` does not stop inside a break. -/
theorem whole_add {w : List Char} (h : s.rest? o = some (w ++ y)) (ho : s.Whole o)
    (hsplit : ¬ Splits w y) : s.Whole (o + byteLength w) := by
  obtain ⟨x, hx, rfl⟩ := rest?_eq_some_iff.1 h
  cases w with
  | nil => simpa using ho
  | cons c w =>
    have hcut : s.chars = (x ++ c :: w) ++ y := by rw [hx, List.append_assoc]
    rw [← byteLength_append, whole_iff hcut]
    rintro ⟨hlast, hhead⟩
    refine hsplit ⟨?_, hhead⟩
    rwa [List.getLast?_append_of_ne_nil _ (by simp)] at hlast

theorem whole_of_head (h : s.rest? o = some y) (hy : y.head? ≠ some '\n') :
    s.Whole o := by
  obtain ⟨x, hx, rfl⟩ := rest?_eq_some_iff.1 h
  exact (whole_iff hx).2 fun hs => hy hs.2

theorem whole_of_not_boundary (h : s.rest? o = none) : s.Whole o := by
  rintro x y hxy rfl
  rw [rest?_eq_some_iff.2 ⟨x, hxy, rfl⟩] at h
  cases h

/-- A text between two such offsets has breaks of the source only. -/
theorem even_slice {e : String} (h : Even e s.chars) {a b : Nat} (ha : s.Whole a) (hb : s.Whole b)
    {w : List Char} (hw : s.slice? ⟨a, b⟩ = some w) : Even e w := by
  obtain ⟨⟨y, hy⟩, hlen⟩ := exists_rest_of_slice? hw
  dsimp only at hy hlen
  obtain ⟨x, hx, rfl⟩ := rest?_eq_some_iff.1 hy
  have hcut : s.chars = (x ++ w) ++ y := by rw [hx, List.append_assoc]
  rw [hx] at h
  obtain ⟨-, hbehind⟩ := h.of_append ((whole_iff hx).1 ha)
  rw [hlen, ← byteLength_append, whole_iff hcut] at hb
  refine (hbehind.of_append fun hs => hb ⟨?_, hs.2⟩).1
  rw [List.getLast?_append, hs.1]
  rfl

/-! ## Walks -/

/-- The first `n` bytes of the text end inside no break: what follows begins with a line feed only
if the walk stops at breaks, and then no carriage return is before it. -/
def Clean (toBreak : Bool) (i : Inside) (cs : List Char) (n : Nat) : Prop :=
  ∃ w y, cs = w ++ y ∧ n = byteLength w ∧
    (y.head? = some '\n' → toBreak = true ∧ w.getLast? ≠ some '\r' ∧ (i = .block → w ≠ []))

theorem Clean.stay {b : Bool} {i : Inside} (hi : i ≠ .block) (hb : cs.head? = some '\n' → b = true) :
    Clean b i cs 0 :=
  ⟨[], cs, rfl, rfl, fun h => ⟨hb h, by simp, fun h => absurd h hi⟩⟩

theorem Clean.step {b : Bool} {i j : Inside} {v : List Char} {k n : Nat} (h : Clean b j cs n)
    (hk : k = byteLength v) (hne : v ≠ []) (hv : b = true → v.getLast? = some '\r' → j = .block) :
    Clean b i (v ++ cs) (k + n) := by
  obtain ⟨w, y, rfl, rfl, hcut⟩ := h
  refine ⟨v ++ w, y, by simp, by simp [hk], fun hy => ?_⟩
  obtain ⟨hb, hlast, hblock⟩ := hcut hy
  refine ⟨hb, ?_, fun _ => by simp [hne]⟩
  cases w with
  | nil =>
    rw [List.append_nil]
    exact fun h => hblock (hv hb h) rfl
  | cons c w => rwa [List.getLast?_append_of_ne_nil _ (by simp)]

theorem clean_spaceLength (b : Bool) (i : Inside) (cs : List Char) :
    Clean b i cs (spaceLength b i cs) := by
  have hsize : ∀ {c : Char}, isBreak c = true → 1 = byteLength [c] := by
    intro c hc
    simp [utf8Size_of_break hc]
  fun_induction spaceLength b i cs with
  | case1 cs ih => exact ih.step (v := ['/', '/']) rfl (by simp) (by simp)
  | case2 cs ih => exact ih.step (v := ['/', '*']) rfl (by simp) (by simp)
  | case3 c cs _ _ hc hb => exact .stay (by simp) fun _ => hb
  | case4 c cs _ _ hc hb ih =>
    exact ih.step (v := [c]) (hsize hc) (by simp) fun h => absurd h hb
  | case5 c cs _ _ hc hblank ih =>
    have hone : c.utf8Size = 1 := utf8Size_of_space (by simp [hblank])
    refine ih.step (v := [c]) (by simp [hone]) (by simp) fun _ h => ?_
    obtain rfl : c = '\r' := by simpa using h
    exact absurd rfl hc
  | case6 c cs _ _ hc hblank =>
    refine .stay (by simp) fun h => ?_
    obtain rfl : c = '\n' := by simpa using h
    exact absurd rfl hc
  | case7 c cs hc hb => exact .stay (by simp) fun _ => hb
  | case8 c cs hc hb ih => exact ih.step (v := [c]) (hsize hc) (by simp) fun h => absurd h hb
  | case9 c cs hc ih =>
    refine ih.step (v := [c]) (by simp) (by simp) fun _ h => ?_
    obtain rfl : c = '\r' := by simpa using h
    exact absurd rfl hc
  | case10 cs ih => exact ih.step (v := ['*', '/']) rfl (by simp) (by simp)
  | case11 c cs _ ih => exact ih.step (v := [c]) (by simp) (by simp) fun _ _ => rfl
  | case12 => exact ⟨[], [], rfl, rfl, by simp⟩

theorem whole_skipSpace (b : Bool) (h : s.Whole o) : s.Whole (s.skipSpace b o) := by
  unfold skipSpace forward
  split
  · rename_i cs hcs
    obtain ⟨w, y, rfl, hlen, hcut⟩ := clean_spaceLength b .space cs
    rw [hlen]
    exact whole_add hcs h fun hs => (hcut hs.2).2.1 hs.1
  · exact h

/-- Space passed to its end ends inside no break, wherever the walk began. -/
theorem whole_skipSpace_false (o : Nat) : s.Whole (s.skipSpace false o) := by
  unfold skipSpace forward
  split
  · rename_i cs hcs
    obtain ⟨w, y, rfl, hlen, hcut⟩ := clean_spaceLength false .space cs
    rw [hlen]
    exact whole_of_head (rest?_add hcs) fun hy => Bool.false_ne_true (hcut hy).1
  · rename_i hnone
    exact whole_of_not_boundary hnone

theorem whole_skipBreak (h : s.Whole o) : s.Whole (s.skipBreak o) := by
  unfold skipBreak forward
  split
  · rename_i cs hcs
    fun_cases breakLength cs with
    | case1 cs => exact whole_add (w := ['\r', '\n']) hcs h (by simp [Splits])
    | case2 c cs hne hc =>
      have hone : 1 = byteLength [c] := by simp [utf8Size_of_break hc]
      rw [hone]
      refine whole_add (w := [c]) hcs h ?_
      rintro ⟨hlast, hhead⟩
      obtain ⟨cs, rfl⟩ := List.head?_eq_some_iff.1 hhead
      exact hne cs (by simpa using hlast) rfl
    | case3 c cs hne hc => exact h
    | case4 => exact h
  · exact h

/-- Blank lines end behind a break. -/
theorem blankLinesLength_cut (passed : Nat) (cs : List Char) :
    blankLinesLength passed cs = 0 ∨ ∃ w y, cs = w ++ y ∧ w ≠ [] ∧ ¬ Splits w y ∧
      blankLinesLength passed cs = passed + byteLength w := by
  have hline : ∀ {v cs : List Char} {passed k : Nat}, k = byteLength v → v ≠ [] → ¬ Splits v cs →
      (blankLinesLength 0 cs = 0 ∨ ∃ w y, cs = w ++ y ∧ w ≠ [] ∧ ¬ Splits w y ∧
        blankLinesLength 0 cs = 0 + byteLength w) →
      ∃ w y, v ++ cs = w ++ y ∧ w ≠ [] ∧ ¬ Splits w y ∧
        passed + k + blankLinesLength 0 cs = passed + byteLength w := by
    rintro v cs passed k rfl hne hsplit (h | ⟨w, y, rfl, hw, hwy, h⟩)
    · exact ⟨v, cs, rfl, hne, hsplit, by rw [h]; omega⟩
    · refine ⟨v ++ w, y, by simp, by simp [hw], ?_, by rw [h, byteLength_append]; omega⟩
      unfold Splits
      rwa [List.getLast?_append_of_ne_nil _ hw]
  fun_induction blankLinesLength passed cs with
  | case1 passed cs ih =>
    exact .inr (hline (v := ['\r', '\n']) rfl (by simp) (by simp [Splits]) ih)
  | case2 passed c cs hne hc ih =>
    refine .inr (hline (v := [c]) (by simp [utf8Size_of_break hc]) (by simp) ?_ ih)
    rintro ⟨hlast, hhead⟩
    obtain ⟨cs, rfl⟩ := List.head?_eq_some_iff.1 hhead
    exact hne cs (by simpa using hlast) rfl
  | case3 passed c cs hne hc hblank ih =>
    rcases ih with h | ⟨w, y, rfl, hw, hwy, h⟩
    · exact .inl h
    · refine .inr ⟨c :: w, y, rfl, by simp, ?_, ?_⟩
      · unfold Splits
        rwa [List.getLast?_cons_of_ne_nil hw]
      · rw [h, byteLength_cons, utf8Size_of_space (by simp [hblank])]
        omega
  | case4 => exact .inl rfl
  | case5 => exact .inl rfl

theorem whole_skipBlankLines (h : s.Whole o) : s.Whole (s.skipBlankLines o) := by
  unfold skipBlankLines forward
  split
  · rename_i cs hcs
    rcases blankLinesLength_cut 0 cs with hzero | ⟨w, y, rfl, -, hsplit, hlen⟩
    · rwa [hzero]
    · rw [hlen, Nat.zero_add]
      exact whole_add hcs h hsplit
  · exact h

theorem whole_skipSpaceBack (o : Nat) : s.Whole (s.skipSpaceBack o) := by
  have hstays := stepsBack_stays (s := s) (o := min o s.size) (Nat.le_refl _)
  rintro x y hxy hlen ⟨hlast, -⟩
  obtain ⟨x, rfl⟩ := List.getLast?_eq_some_iff.1 hlast
  unfold skipSpaceBack at hlen
  rw [hlen] at hstays
  refine hstays ?_
  have hchar : charBefore? (byteLength (x ++ ['\r'])) s.chars = some '\r' := by
    have := charBefore?_append x '\r' y
    rwa [byteLength_append, hxy, List.append_assoc]
  have hpos : 0 < byteLength (x ++ ['\r']) := by
    rw [byteLength_append]
    exact Nat.add_pos_right _ (Grammar.byteLength_pos rfl)
  unfold stepBack
  split
  · rename_i start hstart
    obtain ⟨c, hc, rfl⟩ := Option.map_eq_some_iff.1 hstart
    have hstop : c.stop = byteLength (x ++ ['\r']) := beq_iff_eq.1 (List.find?_some hc :)
    rw [← hstop]
    exact start_lt_stop_of_mem_comments (s.comments_eq ▸ List.mem_of_find?_eq_some hc)
  · rw [hchar]
    simp only [isBlank, isBreak]
    exact Nat.sub_lt hpos Nat.zero_lt_one

theorem whole_leadStart (h : s.Whole o) : s.Whole (s.leadStart o) :=
  whole_min h (whole_skipBreak (whole_skipSpace true (whole_skipSpaceBack o)))

end Source

end Transcribe.Text

namespace Transcribe

open Text (isBreak)

/-! ## Words without breaks -/

def isLine (t : String) : Bool := t.toList.all (!isBreak ·)

theorem isLine_append {t u : String} (ht : isLine t = true) (hu : isLine u = true) :
    isLine (t ++ u) = true := by
  simp only [isLine, String.toList_append, List.all_append, Bool.and_eq_true] at *
  exact ⟨ht, hu⟩

theorem isLine_intercalate {sep : String} {ts : List String} (hsep : isLine sep = true)
    (hts : ∀ t ∈ ts, isLine t = true) : isLine (sep.intercalate ts) = true := by
  induction ts with
  | nil => rfl
  | cons t ts ih =>
    obtain ⟨ht, hts⟩ := List.forall_mem_cons.1 hts
    cases ts with
    | nil => simpa using ht
    | cons u ts =>
      rw [String.intercalate_cons_cons]
      exact isLine_append (isLine_append ht hsep) (ih hts)

theorem isLine_of_identifier {t : String} (h : ∀ c ∈ t.toList, Java.isIdentChar c = true) :
    isLine t = true := by
  refine List.all_eq_true.2 fun c hc => ?_
  have hspace := (Java.isSpace_of_isIdentChar (h c hc)).1
  simp only [Text.isSpace, Bool.or_eq_false_iff] at hspace
  simp [hspace.2]

theorem getLast?_of_isLine {t : String} (h : isLine t = true) : t.toList.getLast? ≠ some '\r' := by
  intro hlast
  have := List.all_eq_true.1 h _ (List.mem_of_getLast? hlast)
  cases this

theorem even_of_isLine {e t : String} (h : isLine t = true) : Text.Even e t.toList :=
  .of_plain fun c hc => by simpa using List.all_eq_true.1 h c hc

/-- Words of a closed set have no line breaks if none of the list has. -/
theorem isLine_word {α : Type} [Java.Worded α]
    (h : ((Java.Worded.all : List α).all fun a => isLine (Java.word a)) = true) (a : α) :
    isLine (Java.word a) = true :=
  List.all_eq_true.1 h a (List.mem_of_find?_eq_some (Java.Worded.find_word a))

end Transcribe
