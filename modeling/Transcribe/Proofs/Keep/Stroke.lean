/-
  Transcribe.Proofs.Keep.Stroke — what single strokes keep.

  Text of the script's own and words taken from the source hold no comment and leave the pass in
  code; space is copied with all its comments. A word that stands in the place of another is read as
  in code wherever a character of the source is (`Follows`), so it does not matter what the pass was
  in. Behind a line comment only a line break brings the pass back to code.
  - `write`, `swap`: words.
  - `copySpace`, `copyLine`, `copyComments`: space.
  - `newline`, `closeLine`: the end of a line ends a line comment.
-/

import Transcribe.Proofs.Keep.Basic

namespace Transcribe

open Text (Span Source Sink Ruler Scan Copy byteLength isBreak isSpace)
open Text.Scan (texts finish Plain)
open Grammar (calm)

variable {j : Job} {strict : Bool}
variable {t : String} {p : Pen} {cs w : List Char} {c : Char} {m : Scan} {o : Nat}

namespace Keeps

/-! ## Words -/

theorem write (ht : Plain t.toList) : Keeps j strict .code .code [] [.write t] := by
  refine of_stroke fun b a ls bs p q hp hrun => ?_
  obtain rfl : p.write t = q := Except.ok.inj hrun
  refine hp.extend (w := t.toList) rfl ?_ hp.onCode
    (.plain (Nat.le_refl _) hp.onCode.within_self ht.texts) (fun e _ hg => ?_) hp.dedent fun _ => hp.trailing (by simp)
  · simp
  · have hg : finish .code e = .code := hg
    rw [Scan.finish_append, hg, ht.finish]
    exact ⟨Scan.settles_code _, rfl⟩

theorem writes (ts : List String) (h : ∀ t ∈ ts, Plain t.toList) :
    Keeps j strict .code .code [] (ts.map .write) := by
  induction ts with
  | nil => exact nil
  | cons t ts ih =>
    exact (write (h t List.mem_cons_self)).cons (ih fun u hu => h u (List.mem_cons_of_mem _ hu))

/-- A word of the source is passed over. -/
theorem onCode_word (hon : j.source.OnCode p.position) (ht : calm t.toList = true)
    (hcs : j.source.rest? p.position = some (t.toList ++ cs)) :
    j.source.OnCode (p.position + byteLength t.toList) ∧
      j.source.within p.position (p.position + byteLength t.toList) = [] :=
  hon.calm hcs ht

theorem swap {t' : String} (ht : calm t.toList = true) (ht' : Plain t'.toList) :
    Keeps j strict .code .code [] [.swap t t'] := by
  refine of_stroke fun b a ls bs p q hp hrun => ?_
  obtain ⟨⟨cs, hcs⟩, rfl⟩ := Job.swap_ok hrun
  obtain ⟨hon, hnone⟩ := onCode_word hp.onCode ht hcs
  refine hp.extend (w := t'.toList) rfl ?_ hon (.plain (Nat.le_add_right _ _) hnone ht'.texts)
    (fun e _ hg => ?_) hp.dedent fun _ => hp.trailing (by simp)
  · simp
  · have hg : finish .code e = .code := hg
    rw [Scan.finish_append, hg, ht'.finish]
    exact ⟨Scan.settles_code _, rfl⟩

end Keeps

namespace Needs

theorem swap {t' : String} (ht : t ≠ "") : Needs j [.swap t t'] := by
  intro p q hrun
  obtain ⟨⟨cs, hcs⟩, -⟩ := Job.swap_ok (Job.run_singleton ▸ hrun)
  have hsize := Source.add_byteLength hcs
  have hpos := Grammar.byteLength_pos (by simpa using ht : t.toList.isEmpty = false)
  rw [Text.byteLength_append] at hsize
  omega

end Needs

/-- Text that is read as in code wherever a character of the source is. -/
def Follows (c : Char) (w : List Char) : Prop :=
  ∀ m : Scan, m.settles c = true → m.Settles w

theorem follows_self (c : Char) (w : List Char) : Follows c (c :: w) :=
  fun _ hm => Scan.settles_cons.2 hm

theorem follows_of_ne {d : Char} (hc : isBreak c = false) (h₁ : d ≠ '/') (h₂ : d ≠ '*') :
    Follows c (d :: w) := by
  intro m hm
  refine Scan.settles_cons.2 ?_
  cases m with
  | code => rfl
  | slash => simp [Scan.settles, h₁, h₂]
  | line acc | literal q => simp [Scan.settles, hc] at hm
  | block acc | star acc | escape q => cases hm

namespace Keeps

/-- A word taken from the source in place of which another is written. -/
theorem swap_loose {t' : String} (ht : calm t.toList = true) (hhead : t.toList = c :: cs)
    (ht' : Plain t'.toList) (hne : t'.toList ≠ []) (hfollows : Follows c t'.toList) :
    Keeps j strict .loose .code [] [.swap t t'] := by
  refine of_stroke fun b a ls bs p q hp hrun => ?_
  obtain ⟨⟨rest, hrest⟩, rfl⟩ := Job.swap_ok hrun
  obtain ⟨hon, hnone⟩ := onCode_word hp.onCode ht hrest
  refine hp.extend (w := t'.toList) rfl ?_ hon (.plain (Nat.le_add_right _ _) hnone ht'.texts)
    (fun e _ hg => ?_) hp.dedent fun _ => hp.trailing (by simp)
  · simp
  · have hsettles := hfollows _ (hg.loose (by rw [hrest, hhead]; rfl))
    rw [Scan.finish_append, Scan.finish_of_settles hsettles hne]
    exact ⟨hsettles, ht'.finish⟩

theorem keep_loose (ht : calm t.toList = true) (hne : t ≠ "") :
    Keeps j strict .loose .code [] [.keep t] := by
  have hne : t.toList ≠ [] := by simpa using hne
  obtain ⟨c, cs, hhead⟩ := List.exists_cons_of_ne_nil hne
  exact swap_loose ht hhead (Scan.plain_of_calm ht) hne (hhead ▸ follows_self c cs)

theorem keep (ht : calm t.toList = true) (hne : t ≠ "") :
    Keeps j strict .ready .code [] [.keep t] := (keep_loose ht hne).mono rfl rfl

end Keeps

/-! ## Space -/

namespace Job

/-- What is written for space. -/
theorem exists_writeSpace (j : Job) (cs : List Char) (p : Pen) :
    ∃ w, Copy j.profile.expandTabs
        (Text.dedent j.ruler p.dedent (if p.sink.column = 0 then some 0 else none) cs) w ∧
      j.writeSpace cs p = { p with sink := p.sink.write (String.ofList w) } := by
  unfold writeSpace
  cases hexpand : j.profile.expandTabs with
  | false => exact ⟨_, rfl, by simp [Pen.write]⟩
  | true =>
    have hpos : 0 < max j.profile.preferredIndent 1 := by omega
    obtain ⟨w, hw, hsink⟩ := Text.exists_writeExpanded hpos p.sink
      (Text.dedent j.ruler p.dedent (if p.sink.column = 0 then some 0 else none) cs)
    exact ⟨w, hw, by simp only [if_true]; rw [hsink]⟩

end Job

/-- What a character that ends no indentation begins with when it is copied. -/
theorem dedent_head {r : Ruler} {n : Nat} {k : Option Nat} (h : k = none ∨ isBreak c = true) :
    ∃ x, Text.dedent r n k (c :: cs) = c :: x := by
  cases k with
  | none => exact ⟨_, rfl⟩
  | some column =>
    have hc : isBreak c = true := h.resolve_left (by simp)
    rcases Scan.break_cases hc with rfl | rfl <;> simp [Text.dedent]

/-- Copied space is read as in code where its first character is. -/
theorem settles_copy {expand : Bool} {r : Ruler} {n : Nat} {k : Option Nat}
    (hw : Copy expand (Text.dedent r n k cs) w) (hm : ∀ c cs', cs = c :: cs' → m.settles c = true)
    (hk : m = .slash → k = none) :
    m.Settles w ∧ (cs = [] ∧ w = [] ∨ m.finish w = finish .code w) := by
  by_cases hcode : m = .code
  · rw [hcode]
    exact ⟨Scan.settles_code w, .inr rfl⟩
  cases cs with
  | nil =>
    obtain rfl := Copy.nil (by cases k <;> exact hw : Copy expand [] w)
    exact ⟨Scan.settles_nil m, .inl ⟨rfl, rfl⟩⟩
  | cons c cs =>
    have hc := hm c cs rfl
    have hhead : k = none ∨ isBreak c = true := by
      cases m with
      | code => exact absurd rfl hcode
      | slash => exact .inl (hk rfl)
      | line acc | literal q => exact .inr hc
      | block acc | star acc | escape q => cases hc
    obtain ⟨x, hx⟩ : ∃ x, Text.dedent r n k (c :: cs) = c :: x := dedent_head hhead
    rw [hx] at hw
    obtain ⟨c', w', rfl, hc'⟩ := hw.cons
    have hsettles : m.Settles (c' :: w') := by
      refine Scan.settles_cons.2 ?_
      rcases hc' with rfl | ⟨rfl, rfl⟩
      · exact hc
      · cases m with
        | slash => rfl
        | code | line acc | block acc | star acc | literal q | escape q => first | rfl | cases hc
    exact ⟨hsettles, .inr (Scan.finish_of_settles hsettles (by simp))⟩

/-- The stage behind copied space with `r` behind it in the source. -/
theorem holds_copy {s : Source} {k : Stage} {toBreak : Bool} {m' : Scan} {r : List Char}
    (hk : k ≠ .code) (hready : k = .ready → toBreak = false) (hrest : s.rest? o = some r)
    (hstate : m = .code ∨ (∃ acc, m = .line acc) ∧
      ∀ d r', r = d :: r' → toBreak = true ∧ isBreak d = true) (halike : Text.Alike m m') :
    k.Holds s o m' := by
  have hnext : ∀ d r', s.rest? o = some (d :: r') → r = d :: r' := by
    intro d r' h
    rw [hrest] at h
    exact Option.some.inj h
  rcases hstate with hcode | ⟨⟨acc, hline⟩, hend⟩
  · exact (show Stage.code.Holds s o m' from halike.code hcode).mono rfl
  · obtain ⟨acc', hline'⟩ := halike.line acc hline
    cases k with
    | code => exact absurd rfl hk
    | ready =>
      refine .inr ⟨⟨acc', hline'⟩, ?_⟩
      cases r with
      | nil => simpa using Source.add_byteLength hrest
      | cons d r' =>
        have := (hend d r' rfl).1
        rw [hready rfl] at this
        cases this
    | line | trail =>
      exact .inr ⟨⟨acc', hline'⟩, fun d r' h => (hend d r' (hnext d r' h)).2⟩
    | loose =>
      rw [hline']
      exact fun d r' h => (hend d r' (hnext d r' h)).2

theorem terminalWidth_slash : Text.terminalWidth '/' = 1 := by decide

/-- The column goes back only with a line break. -/
theorem through_pos {r : Ruler} {column : Nat} {t : List Char} (h : 0 < column)
    (ht : ∀ c ∈ t, isBreak c = false) : 0 < r.through column t := by
  induction t generalizing column with
  | nil => exact h
  | cons c t ih =>
    refine ih ?_ fun d hd => ht d (List.mem_cons_of_mem _ hd)
    rw [Ruler.step, if_neg (by simp [ht c List.mem_cons_self]), Ruler.advance]
    split
    · exact Nat.mul_pos (Nat.succ_pos _) r.tab_pos
    · omega

namespace Kept

variable {b bs : List Char} {a : Nat} {ls : List Span} {g k : Stage} {p q : Pen}

/-- Behind a slash on the same line the column is not the first. -/
theorem column_pos {u t : List Char} (h : Kept j strict b a ls bs g p)
    (htext : p.sink.text.toList = u ++ '/' :: t) (ht : ∀ c ∈ t, isBreak c = false) :
    p.sink.column ≠ 0 := by
  have hwidth : (Ruler.standard j.profile.preferredIndent).width '/' = 1 := terminalWidth_slash
  rw [h.column, h.ruler, htext, Ruler.through, List.foldl_append, List.foldl_cons]
  refine Nat.ne_of_gt (through_pos ?_ ht)
  simp [Ruler.step, Ruler.advance, isBreak, hwidth]

/-- Copied space has all its comments. -/
theorem entry_gap {x : List Char} {column? : Option Nat}
    (hslices : Scan.Slices j.source.chars (j.source.within p.position o) (texts .code cs))
    (htexts : texts .code x = texts .code cs) (hle : p.position ≤ o)
    (hdedent : p.dedent ≠ 0 → j.profile.isCpp = true)
    (hw : Copy j.profile.expandTabs (Text.dedent j.ruler p.dedent column? x) w) :
    Entry j strict [] p.position o w := by
  refine .full hle ?_
  have hcopies := (Text.texts_copy hw).1
  rw [htexts] at hcopies
  refine List.forall₂_iff_get.2 ⟨hslices.length_eq.trans hcopies.length_eq, fun i h₁ h₂ => ?_⟩
  have h₃ : i < (texts .code cs).length := hslices.length_eq ▸ h₁
  exact ⟨(texts .code cs).get ⟨i, h₃⟩, p.dedent, hslices.get h₁ h₃, hdedent, hcopies.get h₃ h₂⟩

theorem copySpace {toBreak : Bool} (h : Kept j strict b a ls bs g p) (hs : j.source.Sealed)
    (hgk : g.below k = true) (hk : k ≠ .code) (hready : k = .ready → toBreak = false)
    (hrun : j.copySpace toBreak p = .ok q) : Kept j strict b a ls bs k q := by
  obtain ⟨cs, r, hrest, hskip, hon, hslices, hnone, hstate⟩ := h.onCode.gap hs toBreak
  have hslice : j.source.slice? ⟨p.position, j.source.skipSpace toBreak p.position⟩ = some cs :=
    Source.slice?_eq_some hrest hskip
  simp only [Job.copySpace, hslice] at hrun
  obtain ⟨w, hw, hwrite⟩ := j.exists_writeSpace cs p
  rw [hwrite, hskip] at hrun
  obtain rfl := Except.ok.inj hrun
  have hentry : Entry j strict [] p.position (p.position + byteLength cs) w :=
    entry_gap hslices rfl (Nat.le_add_right _ _) h.dedent hw
  have halike := (Text.texts_copy hw).2
  have hrest' : j.source.rest? (p.position + byteLength cs) = some r := Source.rest?_add hrest
  rw [← List.append_nil ls]
  refine h.extend (w := w) (by rw [Text.brackets_copy hw, hnone, List.append_nil]) rfl hon hentry
    (fun e he hg => ?_) h.dedent fun hk' => ?_
  · have hslash : finish .code e = .slash → (if p.sink.column = 0 then some 0 else none) = none := by
      intro hslash
      have hbehind := Scan.behind_finish e
      rw [hslash] at hbehind
      obtain ⟨u, rfl, -⟩ := hbehind
      exact if_neg (h.column_pos (by rw [he, List.append_assoc]) (by simp))
    obtain ⟨hsettles, hfinish⟩ := settles_copy hw
      (fun c cs' hcs => hg.loose (by rw [hrest, hcs]; rfl)) hslash
    refine ⟨hsettles, ?_⟩
    rw [Scan.finish_append]
    rcases hfinish with ⟨rfl, rfl⟩ | hfinish
    · exact hg.mono hgk
    · rw [hfinish]
      exact holds_copy hk hready hrest' hstate halike
  · exact (h.mono hgk).trailing hk'

end Kept

namespace Keeps

variable {k : Stage} {lost : List Span} {r : Script}

theorem copySpace (hs : j.source.Sealed) : Keeps j strict .ready .ready [] [.copySpace] := by
  refine of_still rfl fun b a ls bs p q hp hrun => ?_
  exact hp.copySpace hs rfl (by simp) (fun _ => rfl) hrun

theorem copySpace_loose (hs : j.source.Sealed) : Keeps j strict .loose .loose [] [.copySpace] := by
  refine of_still rfl fun b a ls bs p q hp hrun => ?_
  exact hp.copySpace hs rfl (by simp) (fun _ => rfl) hrun

theorem copyLine (hs : j.source.Sealed) : Keeps j strict .line .line [] [.copyLine] := by
  refine of_still rfl fun b a ls bs p q hp hrun => ?_
  exact hp.copySpace hs rfl (by simp) (by simp) hrun

theorem copyTrail (hs : j.source.Sealed) : Keeps j strict .trail .trail [] [.copyTrail] := by
  refine of_still rfl fun b a ls bs p q hp hrun => ?_
  rw [Job.stroke] at hrun
  split at hrun
  · exact Except.ok.inj hrun ▸ hp
  · exact hp.copySpace hs rfl (by simp) (by simp) hrun

/-- What follows space. -/
theorem space (hs : j.source.Sealed) (h : Keeps j strict .ready k lost r) :
    Keeps j strict .code k lost (.copySpace :: r) :=
  ((copySpace hs).cons h).mono rfl (by cases k <;> rfl)

theorem space_loose (hs : j.source.Sealed) (h : Keeps j strict .loose k lost r) :
    Keeps j strict .loose k lost (.copySpace :: r) := (copySpace_loose hs).cons h

theorem token (hs : j.source.Sealed) (ht : calm t.toList = true) (hne : t ≠ "") :
    Keeps j strict .loose .code [] (Script.token t) :=
  space_loose hs (keep_loose ht hne)

theorem token_code (hs : j.source.Sealed) (ht : calm t.toList = true) (hne : t ≠ "") :
    Keeps j strict .code .code [] (Script.token t) := (token hs ht hne).of_code

end Keeps

/-- Where space was copied that is not there, nothing has changed. -/
theorem Job.copySpace_stay {toBreak : Bool} {q : Pen} (h : j.copySpace toBreak p = .ok q)
    (hpos : q.position = p.position) : q = p := by
  obtain ⟨cs, hcs, rfl⟩ := Job.copySpace_ok h
  have hstay : j.source.skipSpace toBreak p.position = p.position := hpos
  rw [hstay] at hcs ⊢
  obtain rfl : cs = [] := by
    simp only [Source.slice?, Text.slice?, Nat.le_refl, if_true, Nat.sub_self] at hcs
    obtain ⟨rest, -, htake⟩ := Option.bind_eq_some_iff.1 hcs
    simpa using htake.symm
  obtain ⟨w, hw, hwrite⟩ := j.exists_writeSpace [] p
  obtain rfl := Copy.nil (by split at hw <;> exact hw : Copy j.profile.expandTabs [] w)
  rw [hwrite, show String.ofList ([] : List Char) = "" from rfl, Sink.write_nil]
  rfl

theorem Keeps.copyDelimiter (hs : j.source.Sealed) :
    Keeps j strict .code .ready [] [.copyDelimiter] := by
  refine of_still rfl fun b a ls bs p q hp hrun => ?_
  simp only [Job.stroke, Job.copyDelimiter] at hrun
  cases hmid : j.copySpace false p with
  | error e => simp [hmid, bind, Except.bind] at hrun
  | ok mid =>
    rw [hmid] at hrun
    obtain rfl := Except.ok.inj hrun
    split
    · exact hp.copySpace hs rfl (by simp) (fun _ => rfl) hmid
    · rename_i hstay
      obtain rfl := Job.copySpace_stay hmid (by simpa [Pen.movedFrom] using hstay)
      exact ((Keeps.write (t := " ") (Scan.plain_of_calm rfl)).still rfl hp rfl).mono rfl

/-! ## Comments without the space before them -/

namespace Text.Scan

theorem texts_cons_space (hc : isSpace c = true) (cs : List Char) :
    texts .code (c :: cs) = texts .code cs ∧ finish .code (c :: cs) = finish .code cs ∧
      brackets .code (c :: cs) = brackets .code cs := by
  have hopens := opens_space hc
  refine ⟨?_, ?_, ?_⟩
  · rw [texts, next, hopens]
    rfl
  · rw [finish_cons, next, hopens]
  · rw [brackets_cons_of_not (not_isBracket_of_space hc), next, hopens]

/-- Space in front of a text does not matter. -/
theorem texts_dropWhile (cs : List Char) :
    texts .code (cs.dropWhile isSpace) = texts .code cs ∧
      finish .code (cs.dropWhile isSpace) = finish .code cs ∧
      brackets .code (cs.dropWhile isSpace) = brackets .code cs := by
  induction cs with
  | nil => exact ⟨rfl, rfl, rfl⟩
  | cons c cs ih =>
    by_cases hc : isSpace c = true
    · obtain ⟨htexts, hfinish, hbrackets⟩ := texts_cons_space hc cs
      rw [List.dropWhile_cons_of_pos hc, htexts, hfinish, hbrackets]
      exact ih
    · rw [List.dropWhile_cons_of_neg hc]
      exact ⟨rfl, rfl, rfl⟩

end Text.Scan

namespace Kept

variable {b bs : List Char} {a : Nat} {ls : List Span} {p q : Pen}

/-- Either the comments at the cursor are copied, or there are none. -/
theorem copyComments (h : Kept j strict b a ls bs .code p) (hs : j.source.Sealed) :
    (j.copyComments p).position = j.source.skipSpace false p.position ∧
        Kept j strict b a ls bs .ready (j.copyComments p) ∨
      j.copyComments p = p ∧
        j.source.within p.position (j.source.skipSpace false p.position) = [] := by
  obtain ⟨cs, r, hrest, hskip, hon, hslices, hnone, hstate⟩ := h.onCode.gap hs false
  have hslice : j.source.slice? ⟨p.position, j.source.skipSpace false p.position⟩ = some cs :=
    Source.slice?_eq_some hrest hskip
  obtain ⟨htexts, hfinish, hbrackets⟩ := Scan.texts_dropWhile cs
  simp only [Job.copyComments, hslice]
  split
  · rename_i hempty
    have hempty : cs.dropWhile isSpace = [] := hempty
    rw [hempty] at htexts
    rw [← htexts] at hslices
    rw [← hskip] at hslices
    exact .inr ⟨rfl, List.forall₂_nil_right_iff.1 hslices⟩
  · rename_i c rest hsome
    have hsome : cs.dropWhile isSpace = c :: rest := hsome
    rw [hsome] at htexts hfinish hbrackets
    obtain ⟨w, hw, hwrite⟩ := j.exists_writeSpace (c :: rest) p
    rw [hwrite, hskip]
    refine .inl ⟨rfl, ?_⟩
    rw [← List.append_nil ls]
    refine h.extend (w := w)
      (by rw [Text.brackets_copy hw, hbrackets, hnone, List.append_nil]) rfl hon
      (entry_gap hslices htexts (Nat.le_add_right _ _) h.dedent hw) (fun e _ hg => ?_) h.dedent
      fun _ => h.trailing (by simp)
    have hg : finish .code e = .code := hg
    rw [Scan.finish_append, hg]
    refine ⟨Scan.settles_code w, holds_copy (by simp) (fun _ => rfl) (Source.rest?_add hrest) hstate ?_⟩
    rw [← hfinish]
    exact (Text.texts_copy hw).2

end Kept

theorem Keeps.copyCommentsOrSkip (hs : j.source.Sealed) :
    Keeps j strict .code .ready [] [.copyCommentsOrSkip] := by
  refine of_still rfl fun b a ls bs p q hp hrun => ?_
  obtain rfl := Except.ok.inj hrun
  rcases hp.copyComments hs with ⟨hpos, hkept⟩ | ⟨hsame, hnone⟩
  · split
    · exact hkept
    · refine hkept.congr rfl ?_ rfl hkept.trailing
      show j.source.skipSpace false (j.copyComments p).position = _
      rw [hpos, Source.skipSpace_skipSpace false hp.onCode.boundary]
  · rw [hsame]
    have hstay : p.movedFrom p = false := by simp [Pen.movedFrom]
    rw [hstay, if_neg (by simp), ← List.append_nil ls]
    exact (hp.move (q := j.skipSpace false p) (k := .code) rfl (hp.onCode.skipSpace hs false)
      (.plain (Source.le_skipSpace false _) hnone rfl) (fun m hm => hm) rfl
      fun _ => hp.trailing (by simp)).mono rfl

/-! ## Lines -/

namespace Text.Scan

/-- Line breaks end a line comment. -/
theorem finish_breaks (hm : m = .code ∨ ∃ acc, m = .line acc) (hw : ∀ c ∈ w, isBreak c = true)
    (hne : w ≠ []) :
    m.Settles w ∧ m.finish w = .code ∧ texts .code w = [] := by
  have hall : ∀ w : List Char, (∀ c ∈ w, isBreak c = true) → Plain w := by
    intro w hw
    induction w with
    | nil => exact .nil
    | cons c w ih =>
      have hopens := opens_break (hw c List.mem_cons_self)
      obtain ⟨hfinish, htexts⟩ := ih fun d hd => hw d (List.mem_cons_of_mem _ hd)
      exact ⟨by rw [finish_cons, next, hopens, hfinish],
        by rw [texts, next, hopens, htexts]; rfl⟩
  have hsettles : m.Settles w := by
    intro c r hcs
    rcases hm with rfl | ⟨acc, rfl⟩
    · rfl
    · exact hw c (by simp [hcs])
  exact ⟨hsettles, by rw [finish_of_settles hsettles hne, (hall w hw).finish], (hall w hw).texts⟩

theorem brackets_breaks (hw : ∀ c ∈ w, isBreak c = true) :
    m.brackets w = [] := by
  refine brackets_of_isBare (List.all_eq_true.2 fun c hc => ?_)
  simp [not_isBracket_of_space, hw c hc]

end Text.Scan

theorem terminator_breaks (cs : List Char) :
    (Text.terminator cs).toList ≠ [] ∧ ∀ c ∈ (Text.terminator cs).toList, isBreak c = true := by
  fun_induction Text.terminator cs with
  | case1 => exact ⟨by decide, List.all_eq_true.1 rfl⟩
  | case2 => exact ⟨by decide, List.all_eq_true.1 rfl⟩
  | case3 => exact ⟨by decide, List.all_eq_true.1 rfl⟩
  | case4 _ _ _ _ _ ih => exact ih
  | case5 => exact ⟨by decide, List.all_eq_true.1 rfl⟩

namespace Keeps

theorem newline : Keeps j strict .line .code [] [.newline] := by
  refine of_still rfl fun b a ls bs p q hp hrun => ?_
  rw [← List.append_nil ls]
  obtain rfl : j.newline p = q := Except.ok.inj hrun
  obtain ⟨hne, hbreaks⟩ := terminator_breaks j.source.chars
  have hplain := (Scan.finish_breaks (.inl rfl) hbreaks hne).2.2
  refine hp.extend (w := (Text.terminator j.source.chars).toList)
    (by rw [Scan.brackets_breaks hbreaks, List.append_nil]) ?_ hp.onCode
    (.plain (Nat.le_refl _) hp.onCode.within_self hplain) (fun e _ hg => ?_) hp.dedent
    fun _ => hp.trailing (by simp)
  · rw [String.ofList_toList]
    rfl
  · obtain ⟨hsettles, hfinish, -⟩ := Scan.finish_breaks (hg.imp id And.left) hbreaks hne
    rw [Scan.finish_append]
    exact ⟨hsettles, hfinish⟩

/-- A line break of the source is copied, if there is one. -/
theorem copyBreak : Keeps j strict .line .ready [] [.copyBreak] := by
  refine of_still rfl fun b a ls bs p q hp hrun => ?_
  rw [← List.append_nil ls]
  obtain ⟨rest, hrest⟩ := hp.onCode.boundary
  obtain ⟨w, r, rfl, hlen, hbreaks, hnone⟩ := Source.exists_breakLength rest
  have hskip : j.source.skipBreak p.position = p.position + byteLength w := by
    simp only [Source.skipBreak, Source.forward, hrest, hlen]
  obtain ⟨hon, hwithin⟩ := hp.onCode.skipBreak
  simp only [Job.stroke, Job.copyBreak, Source.slice?_eq_some hrest hskip] at hrun
  obtain rfl := Except.ok.inj hrun
  by_cases hw : w = []
  · subst hw
    refine hp.extend (w := []) (List.append_nil bs) rfl hon
      (.plain (by rw [hskip]; exact Nat.le_add_right _ _) hwithin rfl)
      (fun e _ hg => ⟨Scan.settles_nil _, ?_⟩) hp.dedent fun _ => hp.trailing (by simp)
    rw [List.append_nil]
    refine hg.imp id fun hline => ⟨hline.1, ?_⟩
    show j.source.skipBreak p.position = _
    rw [hskip]
    cases r with
    | nil => simpa using Source.add_byteLength hrest
    | cons c r =>
      have := hline.2 c r hrest
      rw [hnone rfl c r rfl] at this
      cases this
  · have hplain := (Scan.finish_breaks (.inl rfl) hbreaks hw).2.2
    refine (hp.extend (q := (p.write (String.ofList w)).moveTo (j.source.skipBreak p.position))
      (k := .code) (by rw [Scan.brackets_breaks hbreaks, List.append_nil]) rfl hon
      (.plain (by rw [Pen.moveTo_position, hskip]; exact Nat.le_add_right _ _)
        hwithin hplain) (fun e _ hg => ?_) hp.dedent fun _ => hp.trailing (by simp)).mono rfl
    obtain ⟨hsettles, hfinish, -⟩ := Scan.finish_breaks (hg.imp id And.left) hbreaks hw
    rw [Scan.finish_append]
    exact ⟨hsettles, hfinish⟩

end Keeps

/-- At the start of a line of the output the pass is in no line comment. -/
theorem Kept.code_of_column {b bs : List Char} {a : Nat} {ls : List Span}
    (h : Kept j strict b a ls bs .line p) (hcolumn : p.sink.column = 0) :
    Kept j strict b a ls bs .code p := by
  obtain ⟨e, he, hledger, hstage, hbs⟩ := h.text
  refine ⟨h.onCode, ⟨e, he, hledger, ?_, hbs⟩, h.ruler, h.column, h.dedent,
    fun _ => h.trailing (by simp)⟩
  rcases hstage with hcode | ⟨⟨acc, hline⟩, -⟩
  · exact hcode
  · have hbehind := Scan.behind_finish e
    rw [hline] at hbehind
    obtain ⟨u, t, rfl, rfl, ht⟩ := hbehind
    refine absurd hcolumn (h.column_pos (u := b ++ u ++ ['/']) (t := t) ?_ ht)
    rw [he]
    simp

namespace Keeps

theorem closeLine {n : Nat} (hn : 0 < n) : Keeps j strict .line .code [] [.closeLine n] := by
  have hrepeat : ∀ {b a ls bs p} (n : Nat), Kept j strict b a ls bs .line p →
      Kept j strict b a ls bs .code (Nat.repeat j.newline (n + 1) p) := by
    intro b a ls bs p n hp
    have hnew : ∀ {p}, Kept j strict b a ls bs .line p →
        Kept j strict b a ls bs .code (j.newline p) := by
      intro p hp
      exact newline.still rfl hp rfl
    induction n with
    | zero => exact hnew hp
    | succ n ih => exact hnew (ih.mono rfl)
  refine of_still rfl fun b a ls bs p q hp hrun => ?_
  obtain rfl := Except.ok.inj hrun
  split
  · rename_i hcolumn
    exact hp.code_of_column hcolumn
  · obtain ⟨m, rfl⟩ : ∃ m, n = m + 1 := ⟨n - 1, by omega⟩
    exact hrepeat m hp

end Keeps

/-! ## Literals and operators -/

/-- A slash at the end of space opens no comment. -/
theorem Text.Source.settles_of_skipSpace {s : Source} {r : List Char}
    (hstay : s.skipSpace false o = o) (hrest : s.rest? o = some ('/' :: r)) :
    Scan.slash.Settles r := by
  rintro c r' rfl
  simp only [Source.skipSpace, Source.forward, hrest] at hstay
  by_cases h₁ : c = '/'
  · subst h₁
    simp [Text.spaceLength] at hstay
  by_cases h₂ : c = '*'
  · subst h₂
    simp [Text.spaceLength] at hstay
  simp [Scan.settles, h₁, h₂]

namespace Keeps

/-- A literal of the source at whose end the loop of the pass ends. -/
theorem keepLiteral {x : Nat} {q : Char} {v : List Char} (hq : Text.isQuote q = true)
    (ht : t.toList = q :: v) (hloop : Java.loopEnd? j.source x = some (x + byteLength t.toList)) :
    KeepsAt j strict x .loose .loose [] [.keep t] := by
  intro b a ls bs p p' hx hp hrun
  obtain ⟨⟨r, hrest⟩, rfl⟩ := Job.swap_ok (Job.run_singleton ▸ hrun)
  rw [ht] at hrest hloop ⊢
  rw [← hx] at hloop
  have hne : q ≠ '/' := by
    rintro rfl
    cases hq
  have hlength := Java.literalLength_of_loopEnd? hrest hloop
  obtain ⟨hpass, hsettles, htexts, -⟩ :=
    Text.commentsFrom_literal hq hlength (p.position + q.utf8Size)
  have hopens : Text.Scan.opens q = .literal q := by simp [Scan.opens_of_ne hne, hq]
  obtain ⟨hon, hnone⟩ := hp.onCode.passes (l := []) hrest (by
    rw [List.cons_append, Scan.commentsFrom_code_of_ne hne, if_pos hq, hpass, Text.byteLength_cons,
      Nat.add_assoc]
    rfl) (by simp)
  refine hp.extend (w := q :: v) (by simp [Stroke.keep, Stroke.brackets, ht]) ?_ hon
    (.plain (Nat.le_add_right _ _) hnone ?_) (fun e _ hg => ?_) hp.dedent
    fun _ => hp.trailing (by simp)
  · rw [← ht, String.ofList_toList]
    rfl
  · rw [texts, Scan.next, hopens, htexts]
    rfl
  · have hhead : (finish .code e).Settles (q :: v) :=
      Scan.settles_cons.2 (hg.loose (r := v ++ r) hrest)
    refine ⟨hhead, ?_⟩
    rw [Scan.finish_append, Scan.finish_of_settles hhead (by simp), Scan.finish_cons, Scan.next,
      hopens]
    intro c r' hr'
    have hrest' := Source.rest?_add hrest
    rw [Pen.write_position, Pen.moveTo_position, hrest'] at hr'
    exact hsettles c r' (Option.some.inj hr')

/-- A slash behind space is no comment. -/
theorem divide (hs : j.source.Sealed) : Keeps j strict .loose .loose [] (Script.token "/") := by
  intro x b a ls bs p q hx hp hrun
  obtain ⟨mid, hmid, hkeep⟩ := Job.run_cons_eq_ok.1 hrun
  have hkept := (copySpace_loose hs).still rfl hp (Job.run_singleton.trans hmid)
  have hstay : j.source.skipSpace false mid.position = mid.position := by
    rw [Job.copySpace_position hmid, Source.skipSpace_skipSpace false hp.onCode.boundary]
  obtain ⟨⟨r, hrest⟩, rfl⟩ := Job.swap_ok (Job.run_singleton ▸ hkeep)
  have hslash : Scan.slash.Settles r := Source.settles_of_skipSpace hstay hrest
  obtain ⟨hon, hnone⟩ := hkept.onCode.passes (w := ['/']) (l := []) hrest
    (Scan.commentsFrom_slash hslash) (by simp)
  refine hkept.extend (w := ['/']) rfl rfl hon (.plain (Nat.le_add_right _ _) hnone rfl)
    (fun e _ hg => ?_) hkept.dedent fun _ => hkept.trailing (by simp)
  have hhead : (finish .code e).Settles ['/'] := Scan.settles_cons.2 (hg.loose hrest)
  refine ⟨hhead, ?_⟩
  rw [Scan.finish_append, Scan.finish_of_settles hhead (by simp)]
  intro c r' hr'
  have hrest' := Source.rest?_add hrest
  exact hslash c r' (Option.some.inj (hrest'.symm.trans hr'))

/-- A word that may stand at the cursor. -/
theorem keepIf (ht : calm t.toList = true) (hne : t ≠ "")
    (hnone : Scan.brackets .code t.toList = []) : Keeps j strict .loose .loose [] [.keepIf t] := by
  refine of_still rfl fun b a ls bs p q hp hrun => ?_
  rw [Job.stroke] at hrun
  split at hrun
  · have hbrackets : Script.brackets [.keep t] = [] := by simp [Stroke.keep, Stroke.brackets, hnone]
    exact ((keep_loose ht hne).still hbrackets hp (Job.run_singleton.trans hrun)).mono rfl
  · exact Except.ok.inj hrun ▸ hp

/-! ## Marks of the pen -/

theorem trail : Keeps j strict .line .trail [] [.trail] := by
  refine of_still rfl fun b a ls bs p q hp hrun => ?_
  obtain rfl := Except.ok.inj hrun
  exact (hp.mono (k := .trail) rfl).congr rfl rfl rfl fun h => absurd rfl h

theorem undent {g : Stage} : Keeps j strict g g [] [.undent] := by
  refine of_still rfl fun b a ls bs p q hp hrun => ?_
  obtain rfl := Except.ok.inj hrun
  exact ⟨hp.onCode, hp.text, hp.ruler, hp.column, fun h => absurd rfl h, hp.trailing⟩

theorem dedentBy {g : Stage} (hcpp : j.profile.isCpp = true) :
    Keeps j strict g g [] [.dedentBy o] := by
  refine of_still rfl fun b a ls bs p q hp hrun => ?_
  rw [Job.stroke] at hrun
  split at hrun
  · obtain rfl := Except.ok.inj hrun
    exact ⟨hp.onCode, hp.text, hp.ruler, hp.column, fun _ => hcpp, hp.trailing⟩
  · cases hrun

end Keeps

/-! ## Labels -/

theorem Text.Scan.plain_spaces (n : Nat) : Plain (List.replicate n ' ') := by
  induction n with
  | zero => exact .nil
  | succ n ih => exact (plain_of_calm (w := [' ']) rfl).append ih

theorem calm_label (access : Java.Access) : calm (Java.word access ++ ":").toList = true := by
  cases access <;> rfl

theorem brackets_label (access : Java.Access) :
    Scan.brackets .code (Java.word access ++ ":").toList = [] ∧
      Scan.brackets .code (Java.word access ++ ":" ++ " ").toList = [] := by
  cases access <;> exact ⟨rfl, rfl⟩

/-- The label in front of a member leaves the pass in code where the source goes on. -/
theorem Kept.label {b bs : List Char} {a : Nat} {ls : List Span} {q : Pen} {access : Java.Access}
    {member owner : Nat} (h : Kept j strict b a ls bs .code p) (hs : j.source.Sealed)
    (hrun : j.label access member owner p = .ok q) (hlt : q.position < j.source.size) :
    Kept j strict b a ls bs .code q := by
  have hword := Scan.plain_of_calm (calm_label access)
  have hwrite : ∀ {p t}, Plain (String.toList t) → Scan.brackets .code (String.toList t) = [] →
      Kept j strict b a ls bs .code p → Kept j strict b a ls bs .code (p.write t) := by
    intro p t ht hnone hp
    exact (Keeps.write ht).still (by simp [Stroke.brackets, hnone]) hp rfl
  simp only [Job.label] at hrun
  split at hrun
  · cases hmid : j.copySpace false p with
    | error e => simp [hmid, bind, Except.bind] at hrun
    | ok mid =>
      rw [hmid] at hrun
      obtain rfl := Except.ok.inj hrun
      have hkept := h.copySpace (k := .ready) hs rfl (by simp) (fun _ => rfl) hmid
      refine hwrite ?_ (brackets_label access).2 (hkept.code_of_ready hlt)
      rw [String.toList_append]
      exact hword.append (Scan.plain_of_calm rfl)
  · cases hmid : j.copySpace true p with
    | error e => simp [hmid, bind, Except.bind] at hrun
    | ok mid =>
      rw [hmid] at hrun
      have hline := h.copySpace (k := .line) hs rfl (by simp) (by simp) hmid
      cases hbreak : j.copyBreak mid with
      | error e => simp [hbreak, bind, Except.bind] at hrun
      | ok mid' =>
        simp only [hbreak, bind, Except.bind] at hrun
        have hready := Keeps.copyBreak.still rfl hline (Job.run_singleton.trans hbreak)
        split at hrun
        · rename_i column hcolumn
          obtain rfl := Except.ok.inj hrun
          have hpad := hwrite (t := String.ofList (List.replicate (column - mid'.sink.column) ' '))
            (by rw [String.toList_ofList]; exact Scan.plain_spaces _)
            (by rw [String.toList_ofList]; exact Scan.brackets_spaces _) (hready.code_of_ready hlt)
          have hlabel := (hwrite hword (brackets_label access).1 hpad).mono (k := .line) rfl
          exact Keeps.newline.still rfl hlabel rfl
        · cases hrun

/-- A label in front of a script that does not begin at the end of the source. -/
theorem Keeps.label {k : Stage} {lost : List Span} {r : Script} {access : Java.Access}
    {member owner : Nat} (hs : j.source.Sealed) (h : Keeps j strict .code k lost r)
    (hneeds : Needs j r) : Keeps j strict .code k lost (.label access member owner :: r) := by
  intro x b a ls bs p q hx hp hrun
  obtain ⟨mid, hmid, hrest⟩ := Job.run_cons_eq_ok.1 hrun
  exact h _ rfl (hp.label hs hmid (hneeds hrest)) hrest

/-! ## Moves -/

def Stroke.isMove : Stroke → Bool
  | .skipSpace | .moveTo _ => true
  | .swap _ t => t == ""
  | _ => false

theorem Job.run_moves {r : Script} (hr : r.all Stroke.isMove = true) {q : Pen}
    (h : j.run r p = .ok q) : q = p.moveTo q.position := by
  induction r generalizing p with
  | nil =>
    obtain rfl := Except.ok.inj h
    rfl
  | cons st r ih =>
    obtain ⟨hst, hr⟩ := Bool.and_eq_true_iff.1 hr
    obtain ⟨mid, hmid, hrun⟩ := Job.run_cons_eq_ok.1 h
    rw [ih hr hrun]
    have hpen : mid = p.moveTo mid.position := by
      cases st with
      | skipSpace | moveTo o =>
        obtain rfl := Except.ok.inj hmid
        rfl
      | swap t t' =>
        obtain rfl : t' = "" := by simpa [Stroke.isMove] using hst
        obtain ⟨-, rfl⟩ := Job.swap_ok hmid
        simp [Pen.write, Pen.moveTo, Sink.write_nil]
      | _ => cases hst
    rw [hpen]
    rfl

theorem Script.brackets_moves {r : Script} (hr : r.all Stroke.isMove = true) : r.brackets = [] := by
  refine List.flatMap_eq_nil_iff.2 fun st hst => ?_
  have hmove := List.all_eq_true.1 hr st hst
  cases st with
  | skipSpace | moveTo o => rfl
  | swap t t' =>
    obtain rfl : t' = "" := by simpa [Stroke.isMove] using hmove
    rfl
  | _ => cases hmove

theorem isMove_dropName (n : Java.Name) : (Script.dropName n).all Stroke.isMove = true := by
  refine Script.all_intercalate rfl fun r hr => ?_
  obtain ⟨x, -, rfl⟩ := List.mem_map.1 hr
  rfl

namespace Kept

variable {b bs : List Char} {a : Nat} {ls : List Span} {p : Pen}

/-- Nothing is written on the way to `o`. -/
theorem pass {new : List Span} (h : Kept j strict b a ls bs .code p) (hon : j.source.OnCode o)
    (hentry : Entry j strict new p.position o []) :
    Kept j strict b a (ls ++ new) bs .code (p.moveTo o) :=
  h.move rfl hon hentry (fun _ hm => hm) rfl fun _ => h.trailing (by simp)

end Kept

namespace Keeps

variable {r : Script} {span : Span}

/-- A node that is passed over, and the words that stand for it. -/
theorem frame_moves (ts : List String) (hlt : span.start < j.source.size)
    (hle : span.start ≤ span.stop) (hon : j.source.OnCode span.stop)
    (hr : r.all Stroke.isMove = true) (hts : ∀ t ∈ ts, Plain t.toList) :
    Keeps j strict .ready .code [span] (Script.framed span (r ++ ts.map .write)) := by
  have hstill : ∀ {ts : List String} {p q : Pen}, j.run (ts.map .write) p = .ok q →
      q.position = p.position ∧ q.trailing = p.trailing := by
    intro ts
    induction ts with
    | nil =>
      intro p q h
      obtain rfl := Except.ok.inj h
      exact ⟨rfl, rfl⟩
    | cons t ts ih =>
      intro p q h
      obtain ⟨mid, hmid, h⟩ := Job.run_cons_eq_ok.1 h
      obtain rfl := Except.ok.inj hmid
      exact (ih h :)
  intro x b a ls bs p q _ hp hrun
  obtain ⟨mid, hstart, hbody, rfl, hstop⟩ := Job.framed_ok hrun
  have hcode := (hp.code_of_ready (by omega)).congr (q := { p.note with trailing := false }) rfl rfl
    rfl fun _ => rfl
  obtain ⟨mid', hmoves, hwrites⟩ := Job.run_append_eq_ok.1 hbody
  have hmid' := Job.run_moves hr hmoves
  obtain ⟨hpos, htrailing⟩ := hstill hwrites
  have hpos' : mid'.position = span.stop := by
    rw [← hpos]
    refine hstop ?_
    rw [htrailing, hmid']
    rfl
  rw [hpos'] at hmid'
  have hentry : Entry j strict [span] p.position span.stop [] := by
    rw [hstart]
    exact .region_nil hle
  have hkept := hcode.pass hon hentry
  rw [← hmid'] at hkept
  have hq := writes ts hts _ rfl hkept hwrites
  rw [List.append_nil] at hq
  rw [Script.brackets_framed, Script.brackets_append, Script.brackets_moves hr, List.nil_append]
  exact hq.congr rfl rfl rfl hq.trailing

/-- Space that is passed over where not all has to be kept. -/
theorem skipSpace (hs : strict = false) (hsealed : j.source.Sealed) :
    Keeps j strict .code .code [] [.skipSpace] := by
  refine of_still rfl fun b a ls bs p q hp hrun => ?_
  obtain rfl := Except.ok.inj hrun
  rw [← List.append_nil ls]
  exact hp.pass (hp.onCode.skipSpace hsealed false) (.loss (Source.le_skipSpace false _) hs)

theorem drop (ht : calm t.toList = true) : Keeps j strict .code .code [] [.drop t] :=
  swap ht .nil

end Keeps

/-! ## Lists -/

namespace Keeps

variable {α : Type} {as : List α} {f : α → Script} {m : α → List Span}

theorem intercalate {sep : Script} (hsep : Keeps j strict .code .code [] sep)
    (h : ∀ x ∈ as, Keeps j strict .code .code (m x) (f x)) :
    Keeps j strict .code .code (as.flatMap m) (sep.intercalate (as.map f)) := by
  induction as with
  | nil => exact nil
  | cons x as ih =>
    obtain ⟨hx, has⟩ := List.forall_mem_cons.1 h
    cases as with
    | nil => simpa using hx
    | cons y as =>
      have hrest := (hx.append hsep).append (ih has)
      simpa [List.intercalate_cons_cons, List.append_assoc] using hrest

/-- Items with commas between them. -/
theorem commaList {k : Stage} (hs : j.source.Sealed) (hk : k.below .loose = true)
    (h : ∀ x ∈ as, Keeps j strict .ready k (m x) (f x)) :
    Keeps j strict .code k (as.flatMap m) (Script.commaList (as.map f)) := by
  cases as with
  | nil => exact (nil (g := .code)).mono rfl (by cases k <;> rfl)
  | cons x as =>
    obtain ⟨hx, has⟩ := List.forall_mem_cons.1 h
    have hrest : Keeps j strict k k (as.flatMap m)
        ((as.map f).flatMap fun item => Script.token "," ++ .copySpace :: item) := by
      rw [List.flatMap_map]
      refine flatMap fun y hy => ?_
      exact ((token hs rfl (by decide)).mono hk rfl).append (space hs (has y hy))
    exact (space hs hx).append hrest

end Keeps

/-- A list of items ends where its last does. -/
theorem Ends.commaList {α : Type} {as : List α} {f : α → Script} {x : α} (hx : as.getLast? = some x)
    (h : Ends j (f x) o) : Ends j (Script.commaList (as.map f)) o := by
  obtain ⟨bs, rfl⟩ := List.getLast?_eq_some_iff.1 hx
  have hitem : ∀ sp : Script, Ends j (sp ++ f x) o := fun sp => h.append
  cases bs with
  | nil => simpa [Script.commaList] using hitem [.copySpace]
  | cons y bs =>
    have hlast := hitem (.copySpace :: f y
      ++ (bs.map f).flatMap (fun item => Script.token "," ++ .copySpace :: item)
      ++ (Script.token "," ++ [Stroke.copySpace]))
    simpa [Script.commaList] using hlast

end Transcribe
