/-
  Transcribe.Proofs.OnCode — places of a text where the pass that finds comments is in code.

  At such a place the table is cut in two: the comments before it and those that the pass finds
  from there on. Between tokens every place is one of them, as long as the pass leaves every literal
  where the literal ends. Between two such places the table has the comments of the text between
  them (`within`). In a `Sealed` text every block comment is ended, so behind a run of space the pass
  is in no such comment.
  - `OnCode.gap`: what the table has of a run of space, and how the pass stands behind it.
  - `OnCode.passes`: text without comments leads from one such place to another.
-/

import Transcribe.Proofs.CopiedComments
import Transcribe.Proofs.Comment

namespace Transcribe.Text

theorem stop_le_of_mem_commentsFrom {r : Region} {o : Nat} {cs : List Char} {s : Span}
    (hs : s ∈ commentsFrom r o cs) : s.stop ≤ o + byteLength cs := by
  have h1 : '/'.utf8Size = 1 := rfl
  have h2 : '*'.utf8Size = 1 := rfl
  have h3 : '\\'.utf8Size = 1 := rfl
  fun_induction commentsFrom r o cs with
  | case4 _ _ _ _ _ ih | case6 _ _ _ ih =>
    simp only [byteLength_cons]
    rcases List.mem_cons.1 hs with rfl | hs
    · simp only
      omega
    · have := ih hs
      omega
  | case10 | case11 =>
    obtain rfl := List.mem_singleton.1 hs
    simp
  | case12 | case13 => cases hs
  | _ =>
    rename_i ih
    have := ih hs
    simp only [byteLength_cons]
    omega

namespace Source

variable {s : Source} {a b c o : Nat}

def OnCode (s : Source) (o : Nat) : Prop :=
  ∃ before rest, s.rest? o = some rest ∧ s.comments = before ++ commentsFrom .code o rest ∧
    ∀ x ∈ before, x.stop ≤ o

def within (s : Source) (a b : Nat) : List Span :=
  s.comments.filter fun x => decide (a ≤ x.start) && decide (x.stop ≤ b)

theorem start_lt_stop {x : Span} (h : x ∈ s.comments) : x.start < x.stop :=
  start_lt_stop_of_mem_comments (s.comments_eq ▸ h)

theorem onCode_zero : s.OnCode 0 :=
  ⟨[], s.chars, dropBytes?_zero _, by rw [s.comments_eq]; rfl, by simp⟩

namespace OnCode

theorem boundary (h : s.OnCode o) : s.Boundary o := by
  obtain ⟨-, rest, hrest, -⟩ := h
  exact ⟨rest, hrest⟩

/-- No comment of the table lies across such a place. -/
theorem apart (h : s.OnCode o) {x : Span} (hx : x ∈ s.comments) : x.stop ≤ o ∨ o ≤ x.start := by
  obtain ⟨before, rest, -, htable, hbefore⟩ := h
  rw [htable, List.mem_append] at hx
  rcases hx with hx | hx
  · exact .inl (hbefore x hx)
  · rcases le_start_of_mem_commentsFrom hx with h | h
    · cases h
    · exact .inr h

theorem within_append (h : s.OnCode b) (hab : a ≤ b) (hbc : b ≤ c) :
    s.within a c = s.within a b ++ s.within b c := by
  have hlt : ∀ x ∈ s.comments, x.start < x.stop := fun x hx => start_lt_stop hx
  obtain ⟨before, rest, -, htable, hbefore⟩ := h
  have hbehind : ∀ x ∈ commentsFrom .code b rest, b ≤ x.start := by
    intro x hx
    exact (le_start_of_mem_commentsFrom hx).resolve_left (by simp [Region.start?])
  unfold within
  rw [htable] at hlt ⊢
  simp only [List.filter_append]
  have hleft : before.filter (fun x => decide (b ≤ x.start) && decide (x.stop ≤ c)) = [] := by
    refine List.filter_eq_nil_iff.2 fun x hx => ?_
    have := hlt x (List.mem_append_left _ hx)
    have := hbefore x hx
    simp only [Bool.and_eq_true, decide_eq_true_eq]
    omega
  have hright : (commentsFrom .code b rest).filter
      (fun x => decide (a ≤ x.start) && decide (x.stop ≤ b)) = [] := by
    refine List.filter_eq_nil_iff.2 fun x hx => ?_
    have := hlt x (List.mem_append_right _ hx)
    have := hbehind x hx
    simp only [Bool.and_eq_true, decide_eq_true_eq]
    omega
  rw [hleft, hright, List.append_nil, List.nil_append]
  congr 1
  · refine List.filter_congr fun x hx => ?_
    have := hbefore x hx
    simp only [Bool.and_eq_decide, decide_eq_decide, decide_eq_true_eq]
    omega
  · refine List.filter_congr fun x hx => ?_
    have := hbehind x hx
    simp only [Bool.and_eq_decide, decide_eq_decide, decide_eq_true_eq]
    omega

theorem within_self (h : s.OnCode o) : s.within o o = [] := by
  have := h.within_append (Nat.le_refl o) (Nat.le_refl o)
  simpa using this

/-- Text with the comments `l` leads from one place to another. -/
theorem passes {w r : List Char} {l : List Span} (h : s.OnCode o)
    (hrest : s.rest? o = some (w ++ r))
    (hpass : commentsFrom .code o (w ++ r) = l ++ commentsFrom .code (o + byteLength w) r)
    (hl : ∀ x ∈ l, x.stop ≤ o + byteLength w) :
    s.OnCode (o + byteLength w) ∧ s.within o (o + byteLength w) = l := by
  obtain ⟨before, rest, hrest', htable, hbefore⟩ := h
  obtain rfl : rest = w ++ r := by rw [hrest] at hrest'; exact (Option.some.inj hrest').symm
  have hlt : ∀ x ∈ s.comments, x.start < x.stop := fun x hx => start_lt_stop hx
  have hstart : ∀ {o : Nat} {t : List Char}, ∀ x ∈ commentsFrom .code o t, o ≤ x.start := by
    intro o t x hx
    exact (le_start_of_mem_commentsFrom hx).resolve_left (by simp [Region.start?])
  have hfrom : ∀ x ∈ l, o ≤ x.start := fun x hx =>
    hstart (t := w ++ r) x (by rw [hpass]; exact List.mem_append_left _ hx)
  constructor
  · refine ⟨before ++ l, r, rest?_add hrest, by rw [htable, hpass, List.append_assoc], ?_⟩
    intro x hx
    rcases List.mem_append.1 hx with hx | hx
    · exact Nat.le_trans (hbefore x hx) (Nat.le_add_right _ _)
    · exact hl x hx
  · unfold within
    rw [htable, hpass] at hlt ⊢
    rw [List.filter_append, List.filter_append, List.filter_eq_nil_iff.2, List.filter_eq_self.2,
      List.filter_eq_nil_iff.2]
    · simp
    all_goals
      intro x hx
      simp only [Bool.and_eq_true, decide_eq_true_eq]
    · have := hlt x (by simp [hx])
      have := hstart x hx
      omega
    · exact ⟨hfrom x hx, hl x hx⟩
    · have := hlt x (by simp [hx])
      have := hbefore x hx
      omega

/-- Text that opens nothing. -/
theorem calm {w r : List Char} (h : s.OnCode o) (hrest : s.rest? o = some (w ++ r))
    (hw : Grammar.calm w = true) :
    s.OnCode (o + byteLength w) ∧ s.within o (o + byteLength w) = [] :=
  h.passes hrest (Grammar.commentsFrom_calm hw o r) (by simp)

end OnCode

def Sealed (s : Source) : Prop :=
  ∀ x ∈ s.comments, ∀ t, s.rest? x.start = some ('/' :: '*' :: t) → Scan.blockCloses t = true

theorem exists_mem_commentsFrom_block (start o : Nat) (cs : List Char) :
    ∃ x ∈ commentsFrom (.block start) o cs, x.start = start := by
  generalize hr : Region.block start = r
  fun_induction commentsFrom r o cs with
  | case6 | case11 =>
    cases hr
    exact ⟨_, List.mem_cons_self, rfl⟩
  | case7 _ _ _ _ _ ih => exact ih hr
  | _ => cases hr

/-- The text does not end in a block comment. -/
theorem Sealed.blockCloses (hs : s.Sealed) (h : s.OnCode o) {v t : List Char}
    (hrest : s.rest? o = some (v ++ '/' :: '*' :: t)) (hv : Scan.finish .code v = .code) :
    Scan.blockCloses t = true := by
  obtain ⟨before, rest, hrest', htable, -⟩ := h
  obtain rfl : rest = v ++ '/' :: '*' :: t := by
    rw [hrest] at hrest'
    exact (Option.some.inj hrest').symm
  obtain ⟨u, -, rfl⟩ := rest?_eq_some_iff.1 hrest
  have hsettles : (Scan.finish .code v).Settles ('/' :: '*' :: t) := by
    rw [hv]
    exact Scan.settles_code _
  obtain ⟨x, hx, hstart⟩ := exists_mem_commentsFrom_block (byteLength u + byteLength v)
    (byteLength u + byteLength v + 2) t
  refine hs x ?_ t (by rw [hstart]; exact rest?_add hrest)
  rw [htable, (Scan.agrees (u := u) .code rfl).append _ hsettles]
  exact List.mem_append_right _ (List.mem_append_right _ hx)

/-- A run of space: the table has its comments, it has no brackets of code, and behind it the pass
is in code unless the line or the text ends a comment. -/
theorem OnCode.gap (h : s.OnCode o) (hs : s.Sealed) (toBreak : Bool) :
    ∃ g r, s.rest? o = some (g ++ r) ∧ s.skipSpace toBreak o = o + byteLength g ∧
      s.OnCode (o + byteLength g) ∧
      Scan.Slices s.chars (s.within o (o + byteLength g)) (Scan.texts .code g) ∧
      Scan.brackets .code g = [] ∧
      (Scan.finish .code g = .code ∨ (∃ acc, Scan.finish .code g = .line acc) ∧
        ∀ d r', r = d :: r' → toBreak = true ∧ isBreak d = true) := by
  obtain ⟨rest, hrest⟩ := h.boundary
  obtain ⟨g, r, rfl, hlen, hend, hnone⟩ := Scan.finish_gap (b := toBreak) .space rest
  obtain ⟨u, hu, rfl⟩ := rest?_eq_some_iff.1 hrest
  have hagrees : Scan.Agrees .code .code (byteLength u) u g := Scan.agrees .code rfl
  have hstate : Scan.finish .code g = .code ∨ (∃ acc, Scan.finish .code g = .line acc) ∧
      ∀ d r', r = d :: r' → toBreak = true ∧ isBreak d = true := by
    have hbehind := Scan.behind_finish g
    cases hfinish : Scan.finish .code g with
    | code => exact .inl rfl
    | line acc =>
      rw [hfinish] at hend
      exact .inr ⟨⟨acc, rfl⟩, hend⟩
    | block acc | star acc =>
      rw [hfinish] at hbehind hend
      -- A block comment that goes on behind the space would be one that the text does not end.
      obtain ⟨v, t, rfl, rfl, hv, ht⟩ := hbehind
      obtain rfl : r = [] := hend
      have hclosed := hs.blockCloses h (by simpa using hrest) hv
      have hopen : Scan.blockCloses t = false := by simpa [Scan.blockCloses] using ht []
      rw [hopen] at hclosed
      cases hclosed
    | slash | literal | escape =>
      rw [hfinish] at hend
      cases hend
  have hsettles : (Scan.finish .code g).Settles r := by
    rcases hstate with hcode | ⟨⟨acc, hline⟩, hbreak⟩
    · rw [hcode]
      exact Scan.settles_code r
    · rw [hline]
      exact fun d r' hr => (hbreak d r' hr).2
  obtain ⟨hon, hwithin⟩ := h.passes hrest (hagrees.append r hsettles)
    fun x hx => stop_le_of_mem_commentsFrom hx
  refine ⟨g, r, hrest, ?_, hon, ?_, hnone, hstate⟩
  · simp only [skipSpace, forward, hrest, hlen]
  · rw [hwithin, hu, ← List.append_assoc]
    exact hagrees.slices r

end Source

end Transcribe.Text
