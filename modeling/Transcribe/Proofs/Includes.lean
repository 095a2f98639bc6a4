/-
  Transcribe.Proofs.Includes — the includes of a C++ header and the lines they stand on.

  In front of a type nothing is written but the includes and the namespace, and between two
  includes stands copied space. So an include shares its line with another just if no line break
  is copied between them. An import on demand goes with the rest of its line, the break that ends
  the line among it, and that break can be the one an include before it needs. In front of the
  namespace the line is closed; in front of a type without one it is not.

  The run of a header is read as inks, so that a line break which is copied can be told from one in
  a word. The script in front of a type is the package, an entry for each import (`importEntry`: the
  space before it, the import, and the rest of its line if it is left out), and what ends the
  imports (`closing`). Most strokes of it are `isWordless`, that is, write nothing of their own.
  - `Source.passed`: what is copied between two includes, past imports that are left out.
  - `includes_alone`: when an include stands alone on its line.
-/

import Transcribe.Proofs.Alone
import Transcribe.Proofs.Ending.Break
import Transcribe.Proofs.Ink

namespace Transcribe

open Text (Span Source Sink Ruler Copy byteLength isBreak)
open Java (Import Package CompilationUnit TypeDecl TypeHead)
open Ink (Bare Broken ClearAhead ClearBehind sinceWord untilWord)

variable {r w : Script} {n : Nat} {xs : List Ink} {span : Span}

/-! ## Copied line breaks -/

namespace Ink

theorem broken_iff (w : List Char) : Broken w ↔ Text.breaks w ≠ [] := by
  induction w with
  | nil => simp [Broken]
  | cons c w ih =>
    rw [Text.breaks_cons]
    by_cases hr : c = '\r'
    · simp only [hr, if_true]
      refine iff_of_true ⟨'\r', by simp, rfl⟩ ?_
      split <;> simp
    · by_cases hn : c = '\n'
      · simp only [hn, if_true]
        exact iff_of_true ⟨'\n', by simp, rfl⟩ (by simp)
      · rw [if_neg hr, if_neg hn, ← ih]
        simp [Broken, isBreak, hr, hn]

/-- A copy has a line break where the text has one. -/
theorem broken_copy {expand : Bool} {r : Ruler} {k : Option Nat} {g w : List Char}
    (h : Copy expand (Text.dedent r n k g) w) : Broken w ↔ Broken g := by
  have hdedent := Text.breaks_dedent r n k g
  rw [broken_iff, broken_iff, ← hdedent]
  cases expand with
  | false =>
    obtain rfl : w = Text.dedent r n k g := h
    rfl
  | true => rw [Text.breaks_spread (x := Text.dedent r n k g) h]

/-- Behind a word that ends in no line break, only a copied break clears the line. -/
theorem clearBehind_of_word {ys : List Ink} {t : List Char} {c : Char} (hys : Bare ys)
    (ht : t.getLast? = some c) (hc : isBreak c = false) :
    ClearBehind (xs ++ .own t :: ys) ↔ Broken (ys.flatMap text) := by
  have hne : t ≠ [] := by
    rintro rfl
    cases ht
  have hsince : sinceWord (xs ++ .own t :: ys) = ys.flatMap text := by
    rw [List.append_cons, sinceWord_append _ hys, sinceWord, List.foldl_append]
    cases t with
    | nil => exact absurd rfl hne
    | cons d t => rfl
  have hlast : ((xs ++ .own t :: ys).flatMap word).getLast? = some c := by
    rw [List.flatMap_append, List.flatMap_cons, hys.words, List.append_nil]
    show (_ ++ t).getLast? = some c
    rw [List.getLast?_append_of_ne_nil _ hne, ht]
  rw [clearBehind_iff, hsince, hlast]
  simp [hc]

theorem clearAhead_of_word {ys : List Ink} {t : List Char} {c : Char} (hxs : Bare xs)
    (ht : t.head? = some c) (hc : isBreak c = false) :
    ClearAhead (xs ++ .own t :: ys) ↔ Broken (xs.flatMap text) := by
  obtain ⟨t, rfl⟩ := List.head?_eq_some_iff.1 ht
  have huntil : untilWord (xs ++ .own (c :: t) :: ys) = xs.flatMap text := by
    rw [untilWord_append hxs, untilWord, List.append_nil]
  have hfirst : ((xs ++ .own (c :: t) :: ys).flatMap word).head? = some c := by
    rw [List.flatMap_append, hxs.words]
    rfl
  rw [clearAhead_iff, huntil, hfirst]
  simp [hc]

theorem clearBehind_of_bare (h : Bare xs) : ClearBehind xs :=
  (clearBehind_iff xs).2 (.inr (by simp [h.words]))

end Ink

/-- Where the rest of a line ends: at a line break, or where the space does. -/
theorem Text.spaceLength_toBreak {b : Bool} (hb : b = true) (i : Inside) (cs : List Char) :
    spaceLength b i cs = spaceLength false i cs ∨
      ∃ g c r, cs = g ++ c :: r ∧ byteLength g = spaceLength b i cs ∧ isBreak c = true := by
  have hstep : ∀ {v cs : List Char} {k n m : Nat}, byteLength v = k →
      (n = m ∨ ∃ g c r, cs = g ++ c :: r ∧ byteLength g = n ∧ isBreak c = true) →
      k + n = k + m ∨ ∃ g c r, v ++ cs = g ++ c :: r ∧ byteLength g = k + n ∧ isBreak c = true := by
    rintro v cs k n m hv (rfl | ⟨g, c, r, rfl, hg, hc⟩)
    · exact .inl rfl
    · exact .inr ⟨v ++ g, c, r, by simp, by rw [byteLength_append, hv, hg], hc⟩
  fun_induction spaceLength b i cs with
  | case1 cs ih => exact hstep (v := ['/', '/']) rfl ih
  | case2 cs ih => exact hstep (v := ['/', '*']) rfl ih
  | case3 c cs _ _ hc _ | case7 c cs hc _ => exact .inr ⟨[], c, cs, rfl, rfl, hc⟩
  | case4 c cs _ _ _ hnot | case8 c cs _ hnot => exact absurd hb hnot
  | case5 c cs h₁ h₂ hc hblank ih =>
    rw [spaceLength_space cs (by simp [hblank])]
    exact hstep (v := [c]) (by simp [utf8Size_of_space (c := c) (by simp [hblank])]) ih
  | case6 c cs h₁ h₂ hc hblank =>
    refine .inl ?_
    rw [spaceLength, if_neg hc, if_neg hblank]
    · exact h₁
    · exact h₂
  | case9 c cs hc ih =>
    rw [spaceLength, if_neg hc]
    exact hstep (v := [c]) (by simp) ih
  | case10 cs ih => exact hstep (v := ['*', '/']) rfl ih
  | case11 c cs hc ih =>
    rw [spaceLength]
    · exact hstep (v := [c]) (by simp) ih
    · exact hc
  | case12 i => exact .inl (by rw [spaceLength])

/-! ## Scripts without words -/

def Stroke.isWordless : Stroke → Bool
  | .enter _ | .leave _ | .copySpace | .copyLine | .copyComments | .copyCommentsOrSkip | .copyBreak
  | .skipSpace | .skipLine | .skipBlankLines | .moveTo _ | .moveToLead _ => true
  | .swap _ t => t == ""
  | _ => false

namespace Job

variable {j : Job} {p q : Pen}

theorem bare_inks (hr : r.all Stroke.isWordless = true) (h : j.run r p = .ok q) :
    Bare (j.inks r p) := by
  have hstroke : ∀ {st : Stroke} {p q : Pen}, st.isWordless = true → j.stroke p st = .ok q →
      Bare (j.strokeInks p q st) := by
    intro st p q hst h
    have hsame : ∀ {q : Pen}, q.sink = p.sink → Bare [.own (p.added q)] := by
      intro q hq
      simp [Bare, Ink.word, Pen.added, hq]
    cases st with
    | copySpace | copyLine | copyComments | copyCommentsOrSkip | copyBreak =>
      simp [Bare, strokeInks, Ink.word]
    | enter span =>
      obtain ⟨-, rfl⟩ := enter_eq_ok.1 h
      exact hsame rfl
    | leave span =>
      obtain ⟨rfl, -⟩ := leave_eq_ok h
      exact hsame rfl
    | swap a b =>
      obtain rfl : b = "" := by simpa [Stroke.isWordless] using hst
      obtain ⟨-, rfl⟩ := swap_ok h
      exact hsame (Text.Sink.write_nil _)
    | skipSpace | skipLine | skipBlankLines | moveTo o | moveToLead o =>
      obtain rfl := Except.ok.inj h
      exact hsame rfl
    | _ => cases hst
  induction r generalizing p with
  | nil => simp [inks, Bare]
  | cons st r ih =>
    obtain ⟨hst, hr⟩ := Bool.and_eq_true_iff.1 hr
    obtain ⟨mid, hmid, hrest⟩ := run_cons_eq_ok.1 h
    rw [inks_cons hmid]
    exact (hstroke hst hmid).append (ih hr hrest)

theorem broken_copySpace (h : j.copySpace false p = .ok q) :
    Broken (p.added q) ↔ Broken (j.source.gapText p.position) := by
  obtain ⟨cs, hslice, rfl⟩ := copySpace_ok h
  obtain ⟨w, hw, hwrite⟩ := j.exists_writeSpace cs p
  rw [Source.gapText_of_slice hslice, ← Ink.broken_copy hw, Pen.added_of_text (w := w)]
  rw [hwrite]
  rfl

/-- The rest of a line and its break have a line break if the space there has. -/
theorem broken_line {mid : Pen} (hline : j.copySpace true p = .ok mid)
    (hbreak : j.copyBreak mid = .ok q) (h : Broken (j.source.gapText p.position)) :
    Broken (p.added q) := by
  rw [(grows_copySpace hline).extended.added (grows_copyBreak hbreak).extended, Ink.broken_append]
  obtain ⟨cs, hslice, hmid⟩ := copySpace_ok hline
  obtain ⟨⟨r, hrest⟩, hstop⟩ := Source.exists_rest_of_slice? hslice
  have hstop : j.source.skipSpace true p.position = p.position + byteLength cs := hstop
  rcases Text.spaceLength_toBreak rfl .space (cs ++ r) with hsame | ⟨g, c, r', hsplit, hg, hc⟩
  · left
    have hskip : j.source.skipSpace false p.position = j.source.skipSpace true p.position := by
      simp only [Source.skipSpace, Source.forward, hrest, hsame]
    rw [← hskip] at hslice
    obtain ⟨w, hw, hwrite⟩ := j.exists_writeSpace cs p
    rw [Pen.added_of_text (w := w) (by rw [hmid, hwrite]; rfl), Ink.broken_copy hw,
      ← Source.gapText_of_slice hslice]
    exact h
  · right
    have hlen : byteLength cs = byteLength g := by
      simp only [Source.skipSpace, Source.forward, hrest] at hstop
      omega
    obtain ⟨rfl, rfl⟩ := Text.append_inj_of_byteLength hsplit hlen
    have hpos : mid.position = p.position + byteLength cs := by
      rw [← hstop, hmid]
      rfl
    obtain ⟨r, hrest', hbreaks, hnone⟩ := added_copyBreak hbreak
    rw [hpos, Source.rest?_add hrest] at hrest'
    cases hadded : mid.added q with
    | nil =>
      have hr : c :: r' = r := by simpa [hadded] using hrest'
      exact absurd hc (by simp [hnone hadded c r' hr.symm])
    | cons b t => exact ⟨b, List.mem_cons_self, hbreaks b (by simp [hadded])⟩

end Job

/-! ## Imports -/

namespace Script

/-- An import with the space before it, and with the rest of its line if it is left out. -/
def importEntry (s : Setting) (i : Import) : Script :=
  .copySpace :: ofImport s i ++ if isDropped s i then [.skipLine] else []

def passImport (i : Import) : Script := [.enter i.span, .drop "import", .moveTo i.span.stop]

def includeLine (i : Import) : String := "#include \x22" ++ i.name.last ++ ".h\x22"

theorem head_includeLine (i : Import) : (includeLine i).toList.head? = some '#' := by
  simp [includeLine, String.toList_append]

theorem last_includeLine (i : Import) : (includeLine i).toList.getLast? = some '\x22' := by
  rw [includeLine, String.toList_append, List.getLast?_append_of_ne_nil _ (by decide)]
  rfl

variable {s : Setting} {i : Import}

theorem importEntry_include (hcpp : s.isCpp = true) (hstatic : i.isStatic = false)
    (h : i.onDemand = false) :
    importEntry s i =
      [Stroke.copySpace] ++ passImport i ++ [Stroke.write (includeLine i), .leave i.span] := by
  simp [importEntry, ofImport, importLine, isDropped, framed, passImport, includeLine, hcpp,
    hstatic, h]

theorem importEntry_dropped (hcpp : s.isCpp = true) (hstatic : i.isStatic = false)
    (h : i.onDemand = true) :
    importEntry s i = [Stroke.copySpace] ++ passImport i ++ [Stroke.leave i.span, .skipLine] := by
  simp [importEntry, ofImport, importLine, isDropped, framed, passImport, hcpp, hstatic, h]

end Script

/-- What is copied from `o` on past imports that are left out, each with the rest of its line. -/
def Text.Source.passed (s : Source) (o : Nat) : List Import → List Char
  | [] => s.gapText o
  | i :: is => s.gapText o ++ s.passed (s.skipBreak (s.skipSpace true i.span.stop)) is

namespace Job

variable {j : Job} {s : Setting} {p q : Pen} {i : Import} {is : List Import}

/-- A static import is not written. -/
theorem not_static (h : j.run (Script.importEntry s i) p = .ok q) : i.isStatic = false := by
  by_contra hstatic
  rw [Bool.not_eq_false] at hstatic
  have hmem : .reject .staticImport ∈ Script.importEntry s i := by
    simp [Script.importEntry, Script.ofImport, Script.framed, hstatic]
  obtain ⟨a, b, hsplit⟩ := List.append_of_mem hmem
  rw [hsplit] at h
  obtain ⟨_, -, h⟩ := run_append_eq_ok.1 h
  obtain ⟨_, h, -⟩ := run_cons_eq_ok.1 h
  exact absurd h stop_ne_ok

theorem passImport_ok (h : j.run (Script.passImport i) p = .ok q) :
    q.sink = p.sink ∧ q.position = i.span.stop := by
  obtain ⟨mid, henter, h⟩ := run_cons_eq_ok.1 h
  obtain ⟨mid', hdrop, h⟩ := run_cons_eq_ok.1 h
  rw [run_singleton] at h
  obtain ⟨-, rfl⟩ := enter_eq_ok.1 henter
  obtain ⟨-, rfl⟩ := swap_ok hdrop
  obtain rfl := Except.ok.inj h
  exact ⟨Text.Sink.write_nil _, rfl⟩

/-- An import that is left out copies the space before it and takes its line with it. -/
theorem dropped_ok (hcpp : s.isCpp = true) (hi : i.onDemand = true)
    (h : j.run (Script.importEntry s i) p = .ok q) :
    ∃ mid, j.copySpace false p = .ok mid ∧ q.sink = mid.sink ∧
      q.position = j.source.skipBreak (j.source.skipSpace true i.span.stop) ∧
      Bare (j.inks (Script.importEntry s i) p) := by
  have hentry := Script.importEntry_dropped hcpp (not_static h) hi
  have hbare : Bare (j.inks (Script.importEntry s i) p) := bare_inks (by rw [hentry]; rfl) h
  rw [hentry] at h
  obtain ⟨passed, hpassed, h⟩ := run_append_eq_ok.1 h
  obtain ⟨mid, hcopy, hpass⟩ := run_append_eq_ok.1 hpassed
  rw [run_singleton] at hcopy
  obtain ⟨hsink, hpos⟩ := passImport_ok hpass
  obtain ⟨left, hleave, h⟩ := run_cons_eq_ok.1 h
  rw [run_singleton] at h
  have hleave : j.leave i.span passed = .ok left := hleave
  obtain ⟨rfl, -⟩ := leave_eq_ok hleave
  obtain rfl := Except.ok.inj h
  exact ⟨mid, hcopy, hsink, congrArg (fun o => j.source.skipBreak (j.source.skipSpace true o)) hpos,
    hbare⟩

theorem bare_dropped (hcpp : s.isCpp = true) (his : ∀ x ∈ is, x.onDemand = true)
    (h : j.run (is.flatMap (Script.importEntry s)) p = .ok q) :
    Bare (j.inks (is.flatMap (Script.importEntry s)) p) := by
  induction is generalizing p with
  | nil => simp [inks, Bare]
  | cons i is ih =>
    obtain ⟨hi, his⟩ := List.forall_mem_cons.1 his
    obtain ⟨mid, hentry, hrest⟩ := run_append_eq_ok.1 h
    obtain ⟨-, -, -, -, hbare⟩ := dropped_ok hcpp hi hentry
    rw [List.flatMap_cons, inks_append hentry]
    exact hbare.append (ih his hrest)

/-- Imports that are left out and the space behind them. -/
theorem passed_ok (hcpp : s.isCpp = true) (his : ∀ x ∈ is, x.onDemand = true)
    (h : j.run (is.flatMap (Script.importEntry s) ++ [Stroke.copySpace]) p = .ok q) :
    Broken (p.added q) ↔ Broken (j.source.passed p.position is) := by
  induction is generalizing p with
  | nil =>
    rw [List.flatMap_nil, List.nil_append, run_singleton] at h
    exact broken_copySpace h
  | cons i is ih =>
    obtain ⟨hi, his⟩ := List.forall_mem_cons.1 his
    rw [List.flatMap_cons, List.append_assoc] at h
    obtain ⟨mid, hentry, hrest⟩ := run_append_eq_ok.1 h
    obtain ⟨copied, hcopy, hsink, hpos, -⟩ := dropped_ok hcpp hi hentry
    have hadded : p.added mid = p.added copied := by rw [Pen.added, hsink]; rfl
    rw [(extends_run hentry).added (extends_run hrest), Ink.broken_append, ih his hrest, hpos, hadded,
      broken_copySpace hcopy, Source.passed, Ink.broken_append]

/-- What goes between an include and the next. -/
theorem between_ok (hcpp : s.isCpp = true) (his : ∀ x ∈ is, x.onDemand = true) {next : Import}
    (h : j.run ([Stroke.leave span] ++ is.flatMap (Script.importEntry s)
      ++ ([Stroke.copySpace] ++ Script.passImport next)) p = .ok q) :
    Bare (j.inks ([Stroke.leave span] ++ is.flatMap (Script.importEntry s)
      ++ ([Stroke.copySpace] ++ Script.passImport next)) p) ∧
      (Broken (p.added q) ↔ Broken (j.source.passed p.position is)) := by
  obtain ⟨mid, hmid, hlast⟩ := run_append_eq_ok.1 h
  obtain ⟨left, hleave, hdropped⟩ := run_append_eq_ok.1 hmid
  obtain ⟨mid', hcopy, hpass⟩ := run_append_eq_ok.1 hlast
  refine ⟨?_, ?_⟩
  · rw [inks_append hmid, inks_append hleave]
    exact ((bare_inks rfl hleave).append (bare_dropped hcpp his hdropped)).append
      (bare_inks rfl hlast)
  · rw [run_singleton] at hleave
    have hleave : j.leave span p = .ok left := hleave
    obtain ⟨hleft, -⟩ := leave_eq_ok hleave
    have hadded : p.added q = left.added mid' := by
      rw [Pen.added, (passImport_ok hpass).1, hleft]
      rfl
    rw [hadded, passed_ok hcpp his (run_append_eq_ok.2 ⟨mid, hdropped, hcopy⟩), hleft]
    rfl

theorem inks_write (t : String) (r : Script) :
    j.inks (.write t :: r) p = .own t.toList :: j.inks r (p.write t) := by
  have hadded : p.added (p.write t) = t.toList := Pen.added_of_text (by simp)
  rw [inks_cons rfl]
  simp [strokeInks, hadded]

/-- A script with an include in it, cut at the include. -/
theorem include_ok (hcpp : s.isCpp = true) (hi : i.onDemand = false) {pre post : List Import}
    (h : j.run (w ++ (pre ++ i :: post).flatMap (Script.importEntry s) ++ r) p = .ok q) :
    ∃ x, j.run (w ++ pre.flatMap (Script.importEntry s) ++ ([Stroke.copySpace] ++ Script.passImport i)) p
        = .ok x ∧ x.position = i.span.stop ∧
      j.run ([Stroke.leave i.span] ++ post.flatMap (Script.importEntry s) ++ r)
        (x.write (Script.includeLine i)) = .ok q ∧
      j.inks (w ++ (pre ++ i :: post).flatMap (Script.importEntry s) ++ r) p
        = j.inks (w ++ pre.flatMap (Script.importEntry s)
            ++ ([Stroke.copySpace] ++ Script.passImport i)) p
          ++ .own (Script.includeLine i).toList
          :: j.inks ([Stroke.leave i.span] ++ post.flatMap (Script.importEntry s) ++ r)
            (x.write (Script.includeLine i)) := by
  have hstatic : i.isStatic = false := by
    have hcut : w ++ (pre ++ i :: post).flatMap (Script.importEntry s) ++ r
        = (w ++ pre.flatMap (Script.importEntry s)) ++ (Script.importEntry s i
          ++ (post.flatMap (Script.importEntry s) ++ r)) := by simp [List.flatMap_append]
    rw [hcut] at h
    obtain ⟨_, -, h⟩ := run_append_eq_ok.1 h
    obtain ⟨_, h, -⟩ := run_append_eq_ok.1 h
    exact not_static h
  have hscript : w ++ (pre ++ i :: post).flatMap (Script.importEntry s) ++ r
      = (w ++ pre.flatMap (Script.importEntry s) ++ ([Stroke.copySpace] ++ Script.passImport i))
        ++ .write (Script.includeLine i)
        :: ([Stroke.leave i.span] ++ post.flatMap (Script.importEntry s) ++ r) := by
    simp [List.flatMap_append, Script.importEntry_include hcpp hstatic hi]
  rw [hscript] at h ⊢
  obtain ⟨x, hfront, hrest⟩ := run_append_eq_ok.1 h
  have hpos : x.position = i.span.stop := by
    rw [← List.append_assoc] at hfront
    obtain ⟨_, -, hpass⟩ := run_append_eq_ok.1 hfront
    exact (passImport_ok hpass).2
  refine ⟨x, hfront, hpos, ?_, by rw [inks_append hfront, inks_write]⟩
  obtain ⟨x', hx', hrest⟩ := run_cons_eq_ok.1 hrest
  obtain rfl := Except.ok.inj hx'
  exact hrest

end Job

/-! ## The header of a type -/

namespace Script

variable (s : Setting) (u : CompilationUnit)

def packageEntry : Script :=
  u.package?.toList.flatMap fun p =>
    .copySpace :: ofPackage s p ++ if s.isCpp then [.skipLine, .skipBlankLines] else []

def closing : Script :=
  (if lineOpen s u then [.copyLine] else []) ++ match u.package? with
    | some p =>
      if s.isCpp then .closeLine 2 :: openNamespace p
      else if lineOpen s u then [.copyBreak] else []
    | none => if lineOpen s u then [.copyBreak] else []

theorem ofPrologue_eq :
    ofPrologue s u = packageEntry s u ++ u.imports.flatMap (importEntry s) ++ closing s u := by
  rw [closing, ← List.append_assoc]
  rfl

variable {s u}

theorem wordless_dropName (n : Java.Name) : (dropName n).all Stroke.isWordless = true := by
  refine all_intercalate rfl fun r hr => ?_
  obtain ⟨x, -, rfl⟩ := List.mem_map.1 hr
  rfl

theorem wordless_packageEntry (hcpp : s.isCpp = true) :
    (packageEntry s u).all Stroke.isWordless = true := by
  unfold packageEntry
  cases u.package? with
  | none => rfl
  | some p =>
    simp [ofPackage, framed, hcpp, wordless_dropName, Stroke.isWordless, Stroke.drop]

/-- Up to its first word, a C++ type writes nothing of its own. -/
theorem exists_typeWord (hcpp : s.isCpp = true) (d : TypeDecl) :
    ∃ r a r', ofDecl s d = r ++ Stroke.swap a "class" :: r' ∧ r.all Stroke.isWordless = true := by
  obtain ⟨a, ha⟩ : ∃ a, typeKeyword s d.head = .swap a "class" := by
    cases hd : d.head.isInterface <;> simp [typeKeyword, hd, hcpp, Stroke.keep]
  refine ⟨.enter d.head.span :: replaceModifiers d.head.modifiers (typeWords s d.head), a,
    .copySpace :: ofName d.head.name ++ ofTypeParameters s d.head ++ ofSupertypes s d.head
      ++ token "\x7b" ++ ofMembers { s with enclosing? := some d.head } d.head .priv d.body
      ++ ofEnd s d.head ++ [Stroke.leave d.head.span], ?_, ?_⟩
  · simp only [ofDecl, ofMember, framed, ofHead, ha, List.cons_append, List.append_assoc]
  · have hwords : typeWords s d.head = [] := by rw [typeWords, if_pos hcpp]
    rw [hwords, replaceModifiers]
    cases d.head.modifiers.getLast? with
    | none => rfl
    | some last => simp [List.all_flatMap, Stroke.isWordless]

end Script

/-! ## Beside an include -/

namespace Job

variable {j : Job} {s : Setting} {p q : Pen} {i : Import} {pre post : List Import}

/-- Before the first include there is no word. -/
theorem bare_front (hcpp : s.isCpp = true) (hpre : ∀ x ∈ pre, x.onDemand = true)
    (hw : w.all Stroke.isWordless = true)
    (h : j.run (w ++ pre.flatMap (Script.importEntry s) ++ ([Stroke.copySpace] ++ Script.passImport i)) p
      = .ok q) :
    Bare (j.inks (w ++ pre.flatMap (Script.importEntry s)
      ++ ([Stroke.copySpace] ++ Script.passImport i)) p) := by
  obtain ⟨mid, hmid, hlast⟩ := run_append_eq_ok.1 h
  obtain ⟨first, hfirst, hdropped⟩ := run_append_eq_ok.1 hmid
  rw [inks_append hmid, inks_append hfirst]
  exact ((bare_inks hw hfirst).append (bare_dropped hcpp hpre hdropped)).append
    (bare_inks rfl hlast)

theorem clearBehind_iff_passed (hcpp : s.isCpp = true) {last : Import}
    (hlast : last.onDemand = false) (hpost : ∀ x ∈ post, x.onDemand = true)
    (h : j.run (w ++ (pre ++ last :: post).flatMap (Script.importEntry s)
      ++ ([Stroke.copySpace] ++ Script.passImport i)) p = .ok q) :
    ClearBehind (j.inks (w ++ (pre ++ last :: post).flatMap (Script.importEntry s)
      ++ ([Stroke.copySpace] ++ Script.passImport i)) p)
      ↔ Broken (j.source.passed last.span.stop post) := by
  obtain ⟨x, -, hpos, hrest, hinks⟩ := include_ok hcpp hlast h
  obtain ⟨hbare, hbroken⟩ := between_ok hcpp hpost hrest
  rw [hinks, Ink.clearBehind_of_word hbare (Script.last_includeLine last) rfl, ← added_of_run hrest,
    hbroken, Pen.write_position, hpos]

theorem clearAhead_iff_passed (hcpp : s.isCpp = true) {next : Import}
    (hnext : next.onDemand = false) (hpre : ∀ x ∈ pre, x.onDemand = true)
    (h : j.run ([Stroke.leave span] ++ (pre ++ next :: post).flatMap (Script.importEntry s) ++ r) p
      = .ok q) :
    ClearAhead (j.inks ([Stroke.leave span] ++ (pre ++ next :: post).flatMap (Script.importEntry s) ++ r) p)
      ↔ Broken (j.source.passed p.position pre) := by
  obtain ⟨x, hfront, -, -, hinks⟩ := include_ok hcpp hnext h
  obtain ⟨hbare, hbroken⟩ := between_ok hcpp hpre hfront
  rw [hinks, Ink.clearAhead_of_word hbare (Script.head_includeLine next) rfl, ← added_of_run hfront,
    hbroken]

/-- Behind an include, the output is back at its first column only with a line break. -/
theorem broken_of_column {x : Pen} (hruler : x.sink.ruler = Ruler.standard n) {w : List Char}
    (h : ((x.sink.write (Script.includeLine i)).write (String.ofList w)).column = 0) :
    Broken w := by
  by_contra hnot
  have hplain : ∀ c ∈ w, isBreak c = false := fun c hc =>
    Bool.eq_false_iff.2 fun hb => hnot ⟨c, hc, hb⟩
  obtain ⟨t, ht⟩ := List.getLast?_eq_some_iff.1 (Script.last_includeLine i)
  have hwidth : (Ruler.standard n).width '\x22' = 1 := by
    show Text.terminalWidth '\x22' = 1
    decide
  have hpos : 0 < (x.sink.write (Script.includeLine i)).column := by
    rw [Sink.write_column, ht, hruler, Ruler.through, List.foldl_append]
    simp [Ruler.step, Ruler.advance, isBreak, hwidth]
  refine absurd h (Nat.ne_of_gt ?_)
  rw [Sink.write_column, String.toList_ofList]
  exact through_pos hpos hplain

theorem added_newline (j : Job) (p : Pen) : p.added (j.newline p) = j.source.terminator.toList :=
  Pen.added_of_text (by simp [newline])

/-- Line breaks are written as line breaks. -/
theorem breaks_repeat (j : Job) (n : Nat) (p : Pen) :
    ∀ c ∈ p.added (Nat.repeat j.newline n p), isBreak c = true := by
  induction n with
  | zero => simp [Nat.repeat, Pen.added]
  | succ n ih =>
    have hadded : p.added (Nat.repeat j.newline (n + 1) p)
        = p.added (Nat.repeat j.newline n p) ++ j.source.terminator.toList :=
      ((grows_newlines n p).extended.added (.of_write rfl)).trans (by rw [← added_newline]; rfl)
    rw [hadded]
    exact List.forall_mem_append.2 ⟨ih, (terminator_breaks j.source.chars).2⟩

/-- Closing a line that is not empty writes a line break first. -/
theorem clearAhead_closeLine (hcolumn : p.sink.column ≠ 0) (hxs : Bare xs) :
    ClearAhead (xs ++ j.inks (.closeLine (n + 1) :: r) p) := by
  have hstroke : j.stroke p (.closeLine (n + 1)) = .ok (Nat.repeat j.newline (n + 1) p) := by
    rw [stroke, if_neg hcolumn]
  have hne : p.added (Nat.repeat j.newline (n + 1) p) ≠ [] := by
    have hlast : (Nat.repeat j.newline n p).Extends (Nat.repeat j.newline (n + 1) p) := .of_write rfl
    rw [(grows_newlines n p).extended.added hlast, Nat.repeat, added_newline]
    exact List.append_ne_nil_of_right_ne_nil _ (terminator_breaks j.source.chars).1
  obtain ⟨c, t, hct⟩ := List.exists_cons_of_ne_nil hne
  have hc : isBreak c = true := breaks_repeat j (n + 1) p c (by rw [hct]; exact List.mem_cons_self)
  refine (Ink.clearAhead_iff _).2 (.inr ?_)
  rw [inks_cons hstroke, List.flatMap_append, hxs.words]
  simpa [strokeInks, hct, Ink.word] using hc

/-- Behind the last include the line is closed in front of a namespace. In front of a type it goes
on, unless a line break is copied. -/
theorem clearAhead_last (hcpp : s.isCpp = true) (hpost : ∀ x ∈ post, x.onDemand = true) {x : Pen}
    (hruler : x.sink.ruler = Ruler.standard n) {u : CompilationUnit} {lead : Script} {d : TypeDecl}
    (hlead : lead.all Stroke.isWordless = true)
    (h : j.run ([Stroke.leave span] ++ post.flatMap (Script.importEntry s)
      ++ (Script.closing s u ++ (lead ++ Script.ofDecl s d ++ r)))
      (x.write (Script.includeLine i)) = .ok q) :
    ClearAhead (j.inks ([Stroke.leave span] ++ post.flatMap (Script.importEntry s)
        ++ (Script.closing s u ++ (lead ++ Script.ofDecl s d ++ r)))
      (x.write (Script.includeLine i)))
      ↔ u.package?.isSome = true ∨ Broken (untilWord (j.inks
          ([Stroke.leave span] ++ post.flatMap (Script.importEntry s)
            ++ (Script.closing s u ++ (lead ++ Script.ofDecl s d ++ r)))
        (x.write (Script.includeLine i)))) := by
  have hfront : ∀ {w : Script} {q : Pen}, w.all Stroke.isWordless = true →
      j.run ([Stroke.leave span] ++ post.flatMap (Script.importEntry s) ++ w)
        (x.write (Script.includeLine i)) = .ok q →
      Bare (j.inks ([Stroke.leave span] ++ post.flatMap (Script.importEntry s) ++ w)
        (x.write (Script.includeLine i))) := by
    intro w q hw hrun
    obtain ⟨mid, hmid, hlast⟩ := run_append_eq_ok.1 hrun
    obtain ⟨first, hfirst, hdropped⟩ := run_append_eq_ok.1 hmid
    rw [inks_append hmid, inks_append hfirst]
    exact ((bare_inks rfl hfirst).append (bare_dropped hcpp hpost hdropped)).append
      (bare_inks hw hlast)
  have hline : (if Script.lineOpen s u then [Stroke.copyLine] else []).all Stroke.isWordless
      = true := by split <;> rfl
  cases hpackage : u.package? with
  | some k =>
    have hscript : [Stroke.leave span] ++ post.flatMap (Script.importEntry s)
        ++ (Script.closing s u ++ (lead ++ Script.ofDecl s d ++ r))
        = ([Stroke.leave span] ++ post.flatMap (Script.importEntry s)
            ++ if Script.lineOpen s u then [Stroke.copyLine] else [])
          ++ .closeLine 2 :: (Script.openNamespace k ++ (lead ++ Script.ofDecl s d ++ r)) := by
      simp [Script.closing, hpackage, hcpp]
    rw [hscript] at h ⊢
    obtain ⟨c, hrun, -⟩ := run_append_eq_ok.1 h
    have hbare := hfront hline hrun
    rw [inks_append hrun]
    refine iff_of_true ?_ (.inl rfl)
    -- In front of a namespace the line is closed, unless a break was copied as the last.
    by_cases hcolumn : c.sink.column = 0
    · refine (Ink.clearAhead_iff _).2 (.inl ?_)
      rw [Ink.untilWord_append hbare, Ink.broken_append, ← added_of_run hrun]
      refine .inl (broken_of_column (i := i) hruler ?_)
      rw [← hcolumn, (extends_run hrun).sink]
      rfl
    · exact clearAhead_closeLine hcolumn hbare
  | none =>
    -- Without a namespace the next word is that of the type.
    obtain ⟨w, a, r', hdecl, hw⟩ := Script.exists_typeWord hcpp d
    have hscript : [Stroke.leave span] ++ post.flatMap (Script.importEntry s)
        ++ (Script.closing s u ++ (lead ++ Script.ofDecl s d ++ r))
        = ([Stroke.leave span] ++ post.flatMap (Script.importEntry s)
            ++ (Script.closing s u ++ lead ++ w)) ++ .swap a "class" :: (r' ++ r) := by
      simp [hdecl]
    have hclosing : (Script.closing s u).all Stroke.isWordless = true := by
      simp only [Script.closing, hpackage, List.all_append, hline, Bool.true_and]
      split <;> rfl
    rw [hscript] at h ⊢
    obtain ⟨c, hrun, hrest⟩ := run_append_eq_ok.1 h
    obtain ⟨c', hword, -⟩ := run_cons_eq_ok.1 hrest
    have hbare := hfront (by simp [hclosing, hlead, hw]) hrun
    have hadded : c.added c' = "class".toList := by
      obtain ⟨-, rfl⟩ := swap_ok hword
      exact Pen.added_of_text (by simp)
    have hinks : j.inks (.swap a "class" :: (r' ++ r)) c
        = .own "class".toList :: j.inks (r' ++ r) c' := by
      rw [inks_cons hword]
      show [Ink.own (c.added c')] ++ _ = _
      rw [hadded]
      rfl
    rw [inks_append hrun, hinks, Ink.clearAhead_of_word hbare rfl rfl, Ink.untilWord_append hbare]
    simp [Ink.untilWord]

theorem clearAhead_of_wordless {mid : Pen} (hw : w.all Stroke.isWordless = true)
    (h : j.run w p = .ok mid) (hbroken : Broken (p.added mid)) :
    ClearAhead (j.inks (w ++ r) p) := by
  refine (Ink.clearAhead_iff _).2 (.inl ?_)
  rw [inks_append h, Ink.untilWord_append (bare_inks hw h), Ink.broken_append, ← added_of_run h]
  exact .inl hbroken

/-- A line break behind an import is the end of its include's line. -/
theorem clearAhead_of_break (hcpp : s.isCpp = true) (hi : i.onDemand = false) {x : Pen}
    (hruler : x.sink.ruler = Ruler.standard n) {u : CompilationUnit}
    (himports : u.imports = pre ++ i :: post) {lead : Script} {d : TypeDecl}
    (hlead : lead.all Stroke.isWordless = true)
    (h : j.run ([Stroke.leave span] ++ post.flatMap (Script.importEntry s)
      ++ (Script.closing s u ++ (lead ++ Script.ofDecl s d ++ r)))
      (x.write (Script.includeLine i)) = .ok q) (hbreak : Broken (j.source.gapText x.position)) :
    ClearAhead (j.inks ([Stroke.leave span] ++ post.flatMap (Script.importEntry s)
        ++ (Script.closing s u ++ (lead ++ Script.ofDecl s d ++ r)))
      (x.write (Script.includeLine i))) := by
  have hfirst : ∀ {w r : Script}, w.all Stroke.isWordless = true →
      j.run ([Stroke.leave span] ++ w ++ r) (x.write (Script.includeLine i)) = .ok q →
      (∀ {a b : Pen}, j.run w a = .ok b → Broken (j.source.gapText a.position) →
        Broken (a.added b)) →
      ClearAhead (j.inks ([Stroke.leave span] ++ w ++ r) (x.write (Script.includeLine i))) := by
    intro w r hw h hbroken
    obtain ⟨mid, hrun, -⟩ := run_append_eq_ok.1 h
    obtain ⟨left, hleave, hgap⟩ := run_append_eq_ok.1 hrun
    refine clearAhead_of_wordless (by simpa [Stroke.isWordless] using hw) hrun ?_
    rw [(extends_run hleave).added (extends_run hgap), Ink.broken_append]
    refine .inr (hbroken hgap ?_)
    rw [run_singleton] at hleave
    have hleave : j.leave span _ = .ok left := hleave
    obtain ⟨rfl, -⟩ := leave_eq_ok hleave
    exact hbreak
  -- What comes first behind the include copies the space there, to the next import or to its line's end.
  cases post with
  | cons next post =>
    have hscript : ∃ r', [Stroke.leave span] ++ (next :: post).flatMap (Script.importEntry s)
        ++ (Script.closing s u ++ (lead ++ Script.ofDecl s d ++ r))
        = [Stroke.leave span] ++ [Stroke.copySpace] ++ r' := ⟨_, by simp [Script.importEntry]; rfl⟩
    obtain ⟨r', hr'⟩ := hscript
    rw [hr'] at h ⊢
    refine hfirst rfl h fun hrun => ?_
    rw [run_singleton] at hrun
    exact (broken_copySpace hrun).2
  | nil =>
    cases hpackage : u.package? with
    | some k => exact (clearAhead_last hcpp (by simp) hruler hlead h).2 (.inl (by simp [hpackage]))
    | none =>
      have hclosing : Script.closing s u = [Stroke.copyLine] ++ [Stroke.copyBreak] := by
        simp [Script.closing, Script.lineOpen, himports, hpackage, Script.isDropped, hi]
      rw [hclosing, List.flatMap_nil, List.append_nil, ← List.append_assoc] at h ⊢
      refine hfirst rfl h fun hrun hgap => ?_
      obtain ⟨mid, hline, hend⟩ := run_append_eq_ok.1 hrun
      rw [run_singleton] at hline hend
      exact broken_line hline hend hgap

end Job

/-- Every header of a C++ translation has one include for each import that names a type, behind what
is written for all in front of the import, and it is told for each side of the include when the
include is alone there on its line. Two includes are on two lines just if a line break is copied
between them. Behind the last include a line break is written in front of a namespace, and none in
front of a type. An import with a line break behind it ends the line of its include in any case. -/
theorem includes_alone {j : Job} (hcpp : j.profile.isCpp = true) {u : CompilationUnit}
    {fs : List Output.File} (hfiles : j.files u = .ok fs) {index : Nat} {d : TypeDecl}
    (hd : u.types[index]? = some d) :
    ∃ f xs, fs[2 * index]? = some f ∧
      f.name = d.head.name.text ++ "." ++ j.profile.language.extension ∧
      xs = j.inks (Output.declarationScript j.profile u index d) j.pen ∧
      f.contents = String.ofList (xs.flatMap Ink.text) ∧
      ∀ pre i post, u.imports = pre ++ i :: post → i.onDemand = false →
        ∃ before after, xs = before ++ .own (Script.includeLine i).toList :: after ∧
          before = j.inks (Script.packageEntry (.ofProfile j.profile) u
            ++ pre.flatMap (Script.importEntry (.ofProfile j.profile))
            ++ ([Stroke.copySpace] ++ Script.passImport i)) j.pen ∧
          ((∀ x ∈ pre, x.onDemand = true) → ClearBehind before) ∧
          (∀ front last dropped, pre = front ++ last :: dropped → last.onDemand = false →
            (∀ x ∈ dropped, x.onDemand = true) →
            (ClearBehind before ↔ Broken (j.source.passed last.span.stop dropped))) ∧
          (∀ dropped next rest, post = dropped ++ next :: rest → next.onDemand = false →
            (∀ x ∈ dropped, x.onDemand = true) →
            (ClearAhead after ↔ Broken (j.source.passed i.span.stop dropped))) ∧
          ((∀ x ∈ post, x.onDemand = true) →
            (ClearAhead after ↔ u.package?.isSome = true ∨ Broken (untilWord after))) ∧
          (Broken (j.source.gapText i.span.stop) → ClearAhead after) := by
  obtain ⟨f, q, hf, hname, hrun, hcontents⟩ := Job.declaration_of_files hfiles hd
  rw [if_pos hcpp] at hf
  rw [Nat.zero_add] at hrun
  refine ⟨f, _, hf, hname, rfl, ?_, ?_⟩
  · rw [hcontents, Job.text_of_run hrun]
    simp [Job.pen, Sink.empty]
  intro pre i post himports hi
  let s := Setting.ofProfile j.profile
  have hs : s.isCpp = true := hcpp
  let lead := Output.leadScript u index d ++ [.copySpace]
  have hlead : lead.all Stroke.isWordless = true := by
    simp only [lead, Output.leadScript]
    split <;> rfl
  have hscript : Output.declarationScript j.profile u index d
      = Script.packageEntry s u ++ (pre ++ i :: post).flatMap (Script.importEntry s)
        ++ (Script.closing s u ++ (lead ++ Script.ofDecl s d
          ++ (.copyTrail :: Script.ofEpilogue s u))) := by
    rw [← himports]
    simp [Output.declarationScript, Script.ofPrologue_eq, s, lead]
  rw [hscript] at hrun ⊢
  obtain ⟨x, hfront, hpos, hrest, hinks⟩ := Job.include_ok hs hi hrun
  have hruler : x.sink.ruler = Ruler.standard j.profile.preferredIndent := by
    rw [(Job.extends_run hfront).sink]
    rfl
  refine ⟨_, _, hinks, rfl, ?_, ?_, ?_, ?_, ?_⟩
  · intro hpre
    exact Ink.clearBehind_of_bare (Job.bare_front hs hpre (Script.wordless_packageEntry hs) hfront)
  · rintro front last dropped rfl hlast hdropped
    exact Job.clearBehind_iff_passed hs hlast hdropped hfront
  · rintro dropped next rest rfl hnext hdropped
    rw [← hpos]
    exact Job.clearAhead_iff_passed hs hnext hdropped hrest
  · intro hpost
    exact Job.clearAhead_last hs hpost hruler hlead hrest
  · intro hbreak
    rw [← hpos] at hbreak
    exact Job.clearAhead_of_break hs hi hruler himports hlead hrest hbreak

def threeImports : String :=
  "package p;\nimport a.B; // b\nimport c.*;\nimport d.E;\nclass X \x7b\x7d\n"

theorem includes_alone_sample : ∃ p fs f pre i post before after,
    Java.parse "X.java" threeImports = .ok p ∧ (Job.mk p.source .cpp).files p.unit = .ok fs ∧
    p.unit.imports = pre ++ i :: post ∧ i.onDemand = false ∧ fs[0]? = some f ∧
    f.contents = String.ofList
      ((before ++ .own (Script.includeLine i).toList :: after).flatMap Ink.text) ∧
    ClearBehind before ∧ ClearAhead after := by
  have h : (Java.parse "X.java" threeImports).toOption.any (fun p =>
      ((Job.mk p.source .cpp).files p.unit).toOption.isSome && p.unit.types[0]?.isSome &&
      p.unit.imports.head?.any fun i =>
        !i.onDemand && (p.source.gapText i.span.stop).any isBreak) = true := by decide +kernel
  obtain ⟨p, hp, h⟩ := (Option.any_eq_true _ _).1 h
  simp only [Bool.and_eq_true] at h
  obtain ⟨⟨hfiles, hd⟩, hi⟩ := h
  obtain ⟨fs, hfs⟩ := Option.isSome_iff_exists.1 hfiles
  obtain ⟨d, hd⟩ := Option.isSome_iff_exists.1 hd
  obtain ⟨i, hhead, hi⟩ := (Option.any_eq_true _ _).1 hi
  obtain ⟨post, himports⟩ := List.head?_eq_some_iff.1 hhead
  simp only [Bool.and_eq_true, Bool.not_eq_true'] at hi
  have hfs := ok_of_toOption hfs
  obtain ⟨f, xs, hf, -, -, hcontents, hinclude⟩ := includes_alone rfl hfs hd
  obtain ⟨before, after, hxs, -, hbehind, -, -, -, hahead⟩ := hinclude [] i post himports hi.1
  refine ⟨p, fs, f, [], i, post, before, after, ok_of_toOption hp, hfs, himports, hi.1, hf,
    hxs ▸ hcontents, hbehind (by simp), hahead ?_⟩
  obtain ⟨c, hc, hbreak⟩ := List.any_eq_true.1 hi.2
  exact ⟨c, hc, hbreak⟩

def droppedImport : String := "import a.B; import c.*;\nimport d.E;\nclass X \x7b\x7d\n"

/-- The line break behind an import goes with it if the import is left out, and the includes on
both sides of it are on one line. -/
theorem includes_share_line : ∃ p fs f, Java.parse "X.java" droppedImport = .ok p ∧
    (Job.mk p.source .cpp).files p.unit = .ok fs ∧ fs[0]? = some f ∧
    f.contents = "#include \x22B.h\x22 #include \x22E.h\x22\nclass X \x7b\x7d;\n" := by
  have h : (Java.parse "X.java" droppedImport).toOption.any (fun p =>
      ((Job.mk p.source .cpp).files p.unit).toOption.any fun fs => fs[0]?.any fun f =>
        f.contents == "#include \x22B.h\x22 #include \x22E.h\x22\nclass X \x7b\x7d;\n") = true := by
    decide +kernel
  obtain ⟨p, hp, h⟩ := (Option.any_eq_true _ _).1 h
  obtain ⟨fs, hfs, h⟩ := (Option.any_eq_true _ _).1 h
  obtain ⟨f, hf, h⟩ := (Option.any_eq_true _ _).1 h
  exact ⟨p, fs, f, ok_of_toOption hp, ok_of_toOption hfs, hf, eq_of_beq h⟩

end Transcribe
