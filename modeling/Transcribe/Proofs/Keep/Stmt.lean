/-
  Transcribe.Proofs.Keep.Stmt — variables and statements keep the comments of the source.

  The modifiers of a declaration stand one behind the other, so the comments that are copied from
  between them are all there are but those of annotations.
  - `replaceModifiers`: the keywords in the place of modifiers.
  - `ofStmt`: what statements keep.
-/

import Transcribe.Proofs.Keep.Expr
import Transcribe.Proofs.Track.Stmt

namespace Transcribe

open Text (Span Source Scan)
open Text.Scan (Plain)
open Grammar (Lexeme calm)
open Java (Ty SimpleName Modifier Expr Fragment Variables Parameter ForInit Stmt Node Rule Good Sound
  Chained)
open Java.Node (losses losses_names underModifiers underVariables underFragment underParameter)

/-! ## Modifiers -/

section

variable {j : Job} {ls : List (Lexeme Rule)} {strict : Bool} {x : Nat}

/-- A modifier that is passed over, with space before it that has no comments. -/
theorem Orderly.entry_modifier (hj : Orderly j ls strict) {m : Modifier}
    (h : Good j.source ls (.modifier m)) (hle : x ≤ m.span.start)
    (hnone : j.source.within x m.span.start = []) :
    Entry j strict ((Node.modifier m).lossy j.source) x m.span.stop [] := by
  have hlt : m.span.start < m.span.stop := h.solid.lt
  have hon : j.source.OnCode m.span.start := by
    cases m <;> exact (h.onCode hj.clear rfl).1
  have hwithin : j.source.within x m.span.stop = j.source.within m.span.start m.span.stop := by
    rw [hon.within_append hle (Nat.le_of_lt hlt), hnone, List.nil_append]
  cases m with
  | keyword span k =>
    refine .plain (Nat.le_trans hle (Nat.le_of_lt hlt)) ?_ rfl
    obtain ⟨⟨r, hr⟩, hstop⟩ := Source.exists_rest_of_slice? (h.word rfl)
    have hcalm : calm (Java.word k).toList = true := by
      cases k with
      | access a => cases a <;> rfl
      | _ => rfl
    rw [hwithin]
    exact hstop ▸ (hon.calm hr hcalm).2
  | tag span n =>
    refine ⟨Nat.le_trans hle (Nat.le_of_lt hlt), fun _ r hr => ?_, [], List.nil_sublist _, fun _ => ?_,
      .nil⟩
    · obtain rfl := List.mem_singleton.1 hr
      exact ⟨hle, Nat.le_refl _⟩
    · unfold Source.spared
      rw [hwithin]
      exact Source.spared_self.symm

namespace Kept

variable {b bs : List Char} {a : Nat} {lost : List Span} {p q : Pen}

/-- A modifier is passed over. -/
theorem modifier (h : Kept j strict b a lost bs .code p) (hj : Orderly j ls strict) {m : Modifier}
    (hm : Good j.source ls (.modifier m)) (hle : p.position ≤ m.span.start)
    (hnone : j.source.within p.position m.span.start = []) :
    Kept j strict b a (lost ++ (Node.modifier m).lossy j.source) bs .code
      (p.moveTo m.span.stop) := by
  have hon : j.source.OnCode m.span.stop := by
    cases m <;> exact (hm.onCode hj.clear rfl).2
  exact h.pass hon (hj.entry_modifier hm hle hnone)

/-- All modifiers but the last: the pen comes to the last with no comment between. -/
theorem modifiers (hj : Orderly j ls strict) {ms : List Modifier} {last : Modifier} {o : Nat}
    (hchain : Chained j.source o (ms ++ [last]))
    (hms : ∀ m ∈ ms ++ [last], Good j.source ls (.modifier m))
    (h : Kept j strict b a lost bs .code p) (hle : p.position ≤ o)
    (hnone : j.source.within p.position o = [])
    (hrun : j.run (ms.flatMap fun m => [.moveTo m.span.stop, .copyComments]) p = .ok q) :
    Kept j strict b a (lost ++ losses j.source (underModifiers ms)) bs .code q ∧
      q.position ≤ last.span.start ∧ j.source.within q.position last.span.start = [] := by
  induction ms generalizing p o lost with
  | nil =>
    obtain rfl := Except.ok.inj hrun
    obtain ⟨rfl, -⟩ := hchain
    simpa [underModifiers] using ⟨h, hle, hnone⟩
  | cons m ms ih =>
    obtain ⟨rfl, hrest⟩ := hchain
    obtain ⟨hm, hms⟩ := List.forall_mem_cons.1 hms
    rw [List.flatMap_cons, Job.run_append_eq_ok] at hrun
    obtain ⟨mid, hmid, hrun⟩ := hrun
    obtain rfl : j.copyComments (p.moveTo m.span.stop) = mid := by
      obtain ⟨mid', hmove, hcopy⟩ := Job.run_cons_eq_ok.1 hmid
      obtain rfl := Except.ok.inj hmove
      exact Except.ok.inj (Job.run_singleton ▸ hcopy)
    have hkept := h.modifier hj hm hle hnone
    have hnext : j.source.skipSpace false m.span.stop < j.source.size := by
      cases ms with
      | nil => exact hrest.1 ▸ (hms last List.mem_cons_self).start_lt
      | cons m' ms => exact hrest.1 ▸ (hms m' List.mem_cons_self).start_lt
    obtain ⟨hkept', hle', hnone'⟩ :
        Kept j strict b a (lost ++ (Node.modifier m).lossy j.source) bs .code
          (j.copyComments (p.moveTo m.span.stop)) ∧
        (j.copyComments (p.moveTo m.span.stop)).position ≤ j.source.skipSpace false m.span.stop ∧
        j.source.within (j.copyComments (p.moveTo m.span.stop)).position
          (j.source.skipSpace false m.span.stop) = [] := by
      rcases hkept.copyComments hj.clear.isSealed with ⟨hpos, hready⟩ | ⟨hsame, hempty⟩
      · rw [Pen.moveTo_position] at hpos
        exact ⟨hready.code_of_ready (hpos ▸ hnext), Nat.le_of_eq hpos,
          hpos ▸ hready.onCode.within_self⟩
      · rw [hsame]
        exact ⟨hkept, Source.le_skipSpace false _, hempty⟩
    simpa [underModifiers] using ih hrest hms hkept' hle' hnone' hrun

end Kept

/-- Keywords in the place of modifiers. -/
theorem Keeps.replaceModifiers (hj : Orderly j ls strict) {ms : List Modifier} {o : Nat}
    (hchain : Chained j.source o ms) (hms : ∀ m ∈ ms, Good j.source ls (.modifier m))
    {words : List String} (hwords : ∀ w ∈ words, Java.isName w = true) :
    KeepsAt j strict o .code .ready (losses j.source (underModifiers ms))
      (Script.replaceModifiers ms words) := by
  have htext : calm (" ".intercalate words).toList = true :=
    calm_intercalate rfl fun w hw => calm_of_isName (hwords w hw)
  have hplain := Scan.plain_of_calm htext
  unfold Script.replaceModifiers
  dsimp only
  cases hlast : ms.getLast? with
  | none =>
    obtain rfl := List.getLast?_eq_none_iff.1 hlast
    dsimp only
    split
    · exact (nil (g := .code)).mono rfl rfl o
    · refine (write ?_).mono rfl rfl o
      rw [String.toList_append]
      exact hplain.append (Scan.plain_of_calm rfl)
  | some last =>
    obtain ⟨init, rfl⟩ := List.getLast?_eq_some_iff.1 hlast
    have htail : Keeps j strict .code .ready []
        (if " ".intercalate words = "" then [Stroke.copyCommentsOrSkip]
          else [.write (" ".intercalate words), .copyDelimiter]) := by
      split
      · exact copyCommentsOrSkip hj.clear.isSealed
      · exact (write hplain).cons (copyDelimiter hj.clear.isSealed)
    intro b a lost bs p q hx hp hrun
    subst hx
    simp only [List.dropLast_concat] at hrun ⊢
    obtain ⟨mid, hmid, hrun⟩ := Job.run_append_eq_ok.1 hrun
    obtain ⟨mid', hmove, hrun⟩ := Job.run_cons_eq_ok.1 hrun
    obtain rfl := Except.ok.inj hmove
    obtain ⟨hkept, hle, hnone⟩ := Kept.modifiers hj hchain hms hp (Nat.le_refl _)
      hp.onCode.within_self hmid
    have hkept' := hkept.modifier hj (hms last (by simp)) hle hnone
    have hstill :
        Script.brackets (init.flatMap fun m => [.moveTo m.span.stop, .copyComments]) = [] := by
      simp [Script.brackets, List.flatMap_assoc, Stroke.brackets]
    simpa [underModifiers, hstill, Stroke.brackets] using htail _ rfl hkept' hrun

end

namespace Keeps

variable {j : Job} {ls : List (Lexeme Rule)} {strict : Bool} {s : Setting}

/-! ## Variables -/

theorem ofInit (hj : Orderly j ls strict) (hprofile : s.profile = j.profile) {init? : Option Expr}
    (h : ∀ e ∈ init?.toList, Sound j.source ls (.expr e)) :
    Keeps j strict .code .loose (losses j.source (Node.underExprs init?.toList))
      (Script.ofInit s init?) := by
  have hs := hj.clear.isSealed
  cases init? with
  | none => exact nil.loosen
  | some e =>
    have he : Keeps j strict .ready .loose (losses j.source (Node.underExpr e))
        (if s.isCpp && Script.isArrayInit e then [.reject .bareArray] else Script.ofExpr s e) := by
      split
      · exact reject _
      · exact (ofExpr hj hprofile (h e (by simp))).of_ready
    simpa [Script.ofInit, Node.underExprs] using (token_code hs rfl (by decide)).append (space hs he)

theorem ofFragment (hj : Orderly j ls strict) (hprofile : s.profile = j.profile) {f : Fragment}
    (h : Sound j.source ls (.fragment f)) :
    Keeps j strict .ready .loose (losses j.source (underFragment f)) (Script.ofFragment s f) := by
  have hname : Keeps j strict .loose .code [] (Script.ofName f.name) :=
    ofName (h.child (by simp [Node.children])).self
  have hinit : Keeps j strict .code .loose (losses j.source (Node.underExprs f.init?.toList))
      (if f.extraDims > 0 then [.reject .variableDims] else Script.ofInit s f.init?) := by
    split
    · exact reject _
    · exact ofInit hj hprofile fun e he => h.child (List.mem_cons_of_mem _ (List.mem_map_of_mem he))
  have hmark : Keeps j strict .code .code []
      (if s.marking then [.write s.profile.marker] else []) :=
    optional s.marking (write (plain_marker s.profile))
  refine frame h.self.start_lt ?_
  simpa [underFragment] using
    ((hmark.append hname.of_code).append hinit) f.span.start

/-- Declared variables from where their modifiers begin. -/
theorem ofVariables (hj : Orderly j ls strict) (hprofile : s.profile = j.profile) {v : Variables}
    {o : Nat} (hchain : Chained j.source o v.modifiers)
    (h : ∀ c ∈ Node.ofVariables v, Sound j.source ls c) {words : List String}
    (hwords : ∀ w ∈ words, Java.isName w = true) :
    KeepsAt j strict o .code .loose (losses j.source (underVariables v))
      (Script.ofVariables s words v) := by
  have hmodifiers := replaceModifiers hj hchain
    (fun m hm => (h (.modifier m) (by simp [Node.ofVariables, hm])).self) hwords
  have htype := ofType hj (h (.type v.type) (by simp [Node.ofVariables]))
  have hfragments : ∀ f ∈ v.fragments, Keeps j strict .ready .loose
      (losses j.source (underFragment f))
      (Script.ofFragment { s with marking := Script.needsMark s v.type } f) := fun f hf =>
    ofFragment (s := { s with marking := Script.needsMark s v.type }) hj hprofile
      (h (.fragment f) (by simp [Node.ofVariables, hf]))
  rw [← hprofile] at htype
  simpa [Script.ofVariables, underVariables] using
    append_at (append_at hmodifiers htype) (commaList hj.clear.isSealed rfl hfragments)

theorem ofLocals (hj : Orderly j ls strict) (hprofile : s.profile = j.profile) {v : Variables}
    {o : Nat} (hchain : Chained j.source o v.modifiers)
    (h : ∀ c ∈ Node.ofVariables v, Sound j.source ls c) :
    KeepsAt j strict o .code .loose (losses j.source (underVariables v))
      (Script.ofLocals s v) := by
  refine ofVariables hj hprofile hchain h fun w hw => ?_
  split at hw
  · obtain rfl := List.mem_singleton.1 hw
    rfl
  · cases hw

/-- The keywords for modifiers are words of the target. -/
theorem isName_keywords {f : Java.Keyword → Option String}
    (hf : ∀ k w, f k = some w → Java.isName w = true) (ms : List Modifier) :
    ∀ w ∈ Script.keywords f ms, Java.isName w = true := by
  intro w hw
  obtain ⟨m, -, hm⟩ := List.mem_filterMap.1 hw
  obtain ⟨k, -, hk⟩ := Option.bind_eq_some_iff.1 hm
  exact hf k w hk

theorem isName_parameterWords (s : Setting) (ms : List Modifier) :
    ∀ w ∈ Script.keywords (Script.parameterWord s) ms, Java.isName w = true := by
  refine isName_keywords (fun k w hk => ?_) _
  unfold Script.parameterWord at hk
  split at hk
  · split at hk
    · cases hk
      rfl
    · cases hk
  · cases hk

theorem ofParameter (hj : Orderly j ls strict) (hprofile : s.profile = j.profile) {p : Parameter}
    (h : Sound j.source ls (.parameter p)) :
    Keeps j strict .ready .code (losses j.source (underParameter p)) (Script.ofParameter s p) := by
  have hs := hj.clear.isSealed
  have hchain : Chained j.source p.span.start p.modifiers := h.self.chain
  have hmodifiers := replaceModifiers hj hchain
    (fun _ hm => (h.child (by simp [Node.children, hm])).self) (isName_parameterWords s p.modifiers)
  have htype := ofType hj (h.child (c := .type p.type) (by simp [Node.children]))
  have hgood := (h.child (c := Node.ofName p.name) (by simp [Node.children])).self
  have hmarked : Keeps j strict .code .code []
      ((if Script.needsMark s p.type then [Stroke.write s.profile.marker] else [])
        ++ Script.ofName p.name) :=
    (optional _ (write (plain_marker s.profile))).append (ofName hgood).of_code
  have hname := space hs (hmarked.of_needs ((Needs.ofName hgood).optional _ _))
  have hdims : Keeps j strict .code .code []
      (if p.extraDims > 0 then [.reject .parameterDims] else []) := by
    split
    · exact reject _
    · exact nil
  rw [← hprofile] at htype
  refine frame h.self.start_lt ?_
  simpa [underParameter] using
    append_at (append_at (append_at hmodifiers htype) hname) hdims

/-! ## Statements -/

theorem ofForInit (hj : Orderly j ls strict) (hprofile : s.profile = j.profile) (init : ForInit)
    (h : ∀ c ∈ Node.ofForInit init, Sound j.source ls c) :
    Keeps j strict .code .loose (losses j.source (Node.underForInit init))
      (Script.commaList (Script.ofForInit s init)) := by
  have hs := hj.clear.isSealed
  cases init with
  | exprs es =>
    rw [Script.ofForInit, Node.underForInit, Tracks.ofExprs_eq, Node.underExprs_eq, Node.losses_flatMap]
    exact commaList hs rfl fun e he =>
      (ofExpr hj hprofile (h (.expr e) (List.mem_map_of_mem he))).of_ready
  | locals span vars =>
    have hsound := h (.locals span vars) (by simp [Node.ofForInit])
    have hlocals : Keeps j strict .ready .loose (losses j.source (underVariables vars))
        (Script.framed span (Script.ofLocals s vars)) :=
      frame hsound.self.start_lt (ofLocals hj hprofile hsound.self.chain fun c hc => hsound.child hc)
    simpa [Script.ofForInit, Script.commaList, Node.underForInit] using space hs hlocals

theorem ofCondition (hj : Orderly j ls strict) (hprofile : s.profile = j.profile) {e : Expr}
    (h : Sound j.source ls (.expr e)) :
    Keeps j strict .code .code (losses j.source (Node.underExpr e)) (Script.ofCondition s e) := by
  have hs := hj.clear.isSealed
  simpa [Script.ofCondition] using
    ((token_code hs rfl (by decide)).append (space hs (ofExpr hj hprofile h).of_ready)).append
      (token hs rfl (by decide))

/-- An expression that may be left out. -/
theorem ofOption (hj : Orderly j ls strict) (hprofile : s.profile = j.profile) (e? : Option Expr)
    (h : ∀ e ∈ e?.toList, Sound j.source ls (.expr e)) :
    Keeps j strict .code .loose (losses j.source (Node.underExprs e?.toList))
      (e?.toList.flatMap fun e => .copySpace :: Script.ofExpr s e) := by
  cases e? with
  | none => exact nil.loosen
  | some e =>
    simpa [Node.underExprs] using
      space hj.clear.isSealed (ofExpr hj hprofile (h e (by simp))).of_ready

theorem ofExprList (hj : Orderly j ls strict) (hprofile : s.profile = j.profile) (es : List Expr)
    (h : ∀ e ∈ es, Sound j.source ls (.expr e)) :
    Keeps j strict .code .loose (losses j.source (Node.underExprs es))
      (Script.commaList (Script.ofExprs s es)) := by
  rw [Tracks.ofExprs_eq, Node.underExprs_eq, Node.losses_flatMap]
  exact commaList hj.clear.isSealed rfl fun e he => (ofExpr hj hprofile (h e he)).of_ready

theorem ofJump (hs : j.source.Sealed) {word : String} (hword : calm word.toList = true)
    (hne : word ≠ "") (what : Rejection) (label? : Option SimpleName) :
    Keeps j strict .code .code [] (Script.ofJump word what label?) := by
  cases label? with
  | some label => exact reject what
  | none => exact ((keep_loose hword hne).cons (token_code hs rfl (by decide))).of_code

theorem forEachHead (hj : Orderly j ls strict) (hprofile : s.profile = j.profile)
    {item : Parameter} {items : Expr} (hitem : Sound j.source ls (.parameter item))
    (hitems : Sound j.source ls (.expr items)) :
    Keeps j strict .code .code
      (losses j.source (underParameter item) ++ losses j.source (Node.underExpr items))
      (Script.forEachHead s item items) := by
  have hs := hj.clear.isSealed
  have hparameter := space hs (ofParameter hj hprofile hitem)
  have hexpr := ofExpr hj hprofile hitems
  rw [Script.forEachHead]
  split
  · simpa using (((((keep_loose rfl (by decide)).of_code.cons
      (token_code hs rfl (by decide))).append hparameter).append
      (token_code hs rfl (by decide))).append (space hs hexpr.of_ready)).append
      (token hs rfl (by decide))
  · have hin : Keeps j strict .code .ready [] [.copyDelimiter, .swap ":" "in", .copyDelimiter] :=
      (copyDelimiter hs).cons (((swap rfl (Scan.plain_of_calm rfl)).of_needs
        (Needs.swap (by decide))).cons (copyDelimiter hs))
    simpa using (((((swap rfl (Scan.plain_of_calm rfl)).cons
      (token_code hs rfl (by decide))).append hparameter).append hin).append hexpr.of_ready).append
      (token hs rfl (by decide))

mutual

theorem ofStmt (hj : Orderly j ls strict) (hprofile : s.profile = j.profile) {t : Stmt}
    (h : Sound j.source ls (.stmt t)) :
    Keeps j strict .ready .code (losses j.source (Node.underStmt t)) (Script.ofStmt s t) := by
  have hs := hj.clear.isSealed
  cases t with
  | block span body =>
    rw [Script.ofStmt, Node.underStmt]
    have hbody := ofStmts hj hprofile body fun t ht => h.child (List.mem_map_of_mem ht)
    refine frame h.self.start_lt ?_
    split
    · simpa using (((keep_loose rfl (by decide)).of_code.cons hbody).append
        (token_code hs rfl (by decide))) span.start
    · exact breach _ _
  | locals span vars =>
    rw [Script.ofStmt, Node.underStmt]
    have hchain : Chained j.source span.start vars.modifiers := h.self.chain
    have hlocals := ofLocals hj hprofile hchain fun c hc => h.child hc
    refine frame h.self.start_lt ?_
    simpa using append_at hlocals (token hs rfl (by decide))
  | expr span e =>
    rw [Script.ofStmt, Node.underStmt]
    have he := ofExpr (e := e) hj hprofile h.part
    refine frame h.self.start_lt ?_
    simpa using (he.of_code.append (token hs rfl (by decide))) span.start
  | ifThen span condition yes =>
    rw [Script.ofStmt, Node.underStmt]
    have hcondition := ofCondition (e := condition) hj hprofile h.part
    have hyes := ofStmt (t := yes) hj hprofile h.part
    refine frame h.self.start_lt ?_
    simpa using (((keep_loose rfl (by decide)).of_code.cons hcondition).append
      (space hs hyes)) span.start
  | ifElse span condition yes no =>
    rw [Script.ofStmt, Node.underStmt]
    have hcondition := ofCondition (e := condition) hj hprofile h.part
    have hyes := ofStmt (t := yes) hj hprofile h.part
    have hno := ofStmt (t := no) hj hprofile h.part
    refine frame h.self.start_lt ?_
    simpa using (((((keep_loose rfl (by decide)).of_code.cons hcondition).append
      (space hs hyes)).append (token_code hs rfl (by decide))).append (space hs hno)) span.start
  | whileLoop span condition body =>
    rw [Script.ofStmt, Node.underStmt]
    have hcondition := ofCondition (e := condition) hj hprofile h.part
    have hbody := ofStmt (t := body) hj hprofile h.part
    refine frame h.self.start_lt ?_
    simpa using (((keep_loose rfl (by decide)).of_code.cons hcondition).append
      (space hs hbody)) span.start
  | doLoop span body condition =>
    rw [Script.ofStmt, Node.underStmt]
    have hbody := ofStmt (t := body) hj hprofile h.part
    have hcondition := ofCondition (e := condition) hj hprofile h.part
    refine frame h.self.start_lt ?_
    simpa using (((((keep_loose rfl (by decide)).of_code.cons (space hs hbody)).append
      (token_code hs rfl (by decide))).append hcondition).append
      (token_code hs rfl (by decide))) span.start
  | forLoop span init condition? updates body =>
    rw [Script.ofStmt, Node.underStmt]
    have hinit := ofForInit hj hprofile init fun _ hc => h.part
    have hcondition := ofOption hj hprofile condition? fun _ he =>
      h.child (by simp_all [Node.children, Node.childrenOfStmt])
    have hupdates := ofExprList hj hprofile updates fun _ he => h.part
    have hbody := ofStmt (t := body) hj hprofile h.part
    refine frame h.self.start_lt ?_
    simpa using (((((((((keep_loose rfl (by decide)).of_code.cons
      (token_code hs rfl (by decide))).append hinit).append (token hs rfl (by decide))).append
      hcondition).append (token hs rfl (by decide))).append hupdates).append
      (token hs rfl (by decide))).append (space hs hbody)) span.start
  | forEach span item items body =>
    rw [Script.ofStmt, Node.underStmt]
    have hhead := forEachHead hj hprofile (h.part (c := .parameter item))
      (h.part (c := .expr items))
    have hbody := ofStmt (t := body) hj hprofile h.part
    refine frame h.self.start_lt ?_
    simpa using (hhead.append (space hs hbody)) span.start
  | ret span value? =>
    rw [Script.ofStmt, Node.underStmt]
    have hvalue := ofOption hj hprofile value? fun _ he =>
      h.child (by simp_all [Node.children, Node.childrenOfStmt])
    refine frame h.self.start_lt ?_
    simpa using (((keep_loose rfl (by decide)).of_code.cons hvalue).append
      (token hs rfl (by decide))) span.start
  | leave span label? =>
    rw [Script.ofStmt, Node.underStmt]
    refine frame h.self.start_lt ?_
    simpa [losses_names] using ofJump hs rfl (by decide) .labeledBreak label? span.start
  | next span label? =>
    rw [Script.ofStmt, Node.underStmt]
    refine frame h.self.start_lt ?_
    simpa [losses_names] using ofJump hs rfl (by decide) .labeledContinue label? span.start
  | throwing span e =>
    rw [Script.ofStmt, Node.underStmt]
    have he := ofExpr (e := e) hj hprofile h.part
    refine frame h.self.start_lt ?_
    simpa using (((keep_loose rfl (by decide)).of_code.cons (space hs he.of_ready)).append
      (token hs rfl (by decide))) span.start
  | empty span => exact frame h.self.start_lt ((keep_loose rfl (by decide)).of_code _)

theorem ofStmts (hj : Orderly j ls strict) (hprofile : s.profile = j.profile) (ts : List Stmt)
    (h : ∀ t ∈ ts, Sound j.source ls (.stmt t)) :
    Keeps j strict .code .code (losses j.source (Node.underStmts ts)) (Script.ofStmts s ts) := by
  cases ts with
  | nil => exact nil
  | cons t ts =>
    obtain ⟨ht, hts⟩ := List.forall_mem_cons.1 h
    simpa [Script.ofStmts, Node.underStmts] using
      (space hj.clear.isSealed (ofStmt hj hprofile ht)).append (ofStmts hj hprofile ts hts)

end

end Keeps

end Transcribe
