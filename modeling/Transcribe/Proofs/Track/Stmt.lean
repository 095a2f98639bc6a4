/-
  Transcribe.Proofs.Track.Stmt — variables and statements keep to their outlines.

  A block outside of every method is a breach, not a rejection; it is excused where such blocks may
  occur, and elsewhere the setting has to say that a method body is written.
  - `ofVariables`, `ofParameter`: declared variables, with keywords in the place of modifiers.
  - `ofStmt`: statements, one case for each kind.
-/

import Transcribe.Proofs.Track.Expr

namespace Transcribe.Tracks

open Java (Ty Expr Fragment Variables Parameter ForInit Stmt SimpleName Node)

variable {j : Job} {stray : Bool} {a : Stance}

/-! ## Variables -/

theorem ofInit (s : Setting) (init? : Option Expr) :
    Tracks j stray .behind .behind (Outline.ofInit init?) (s.isCpp && init?.any Script.isArrayInit)
      (faults s.isCpp (Node.underExprs init?.toList)) (Script.ofInit s init?) := by
  cases init? with
  | none => rw [Option.any_none, Bool.and_false]; exact nil
  | some e =>
    have he : Tracks j stray .before .behind (Outline.ofExpr e) (s.isCpp && Script.isArrayInit e)
        (faults s.isCpp (Node.underExpr e))
        (if s.isCpp && Script.isArrayInit e then [.reject .bareArray] else Script.ofExpr s e) := by
      cases hreject : s.isCpp && Script.isArrayInit e with
      | false => exact ofExpr s e
      | true =>
        refine reject _ ?_
        cases e with
        | arrayInit span items => rfl
        | _ => simp [Script.isArrayInit] at hreject
    simpa [Outline.ofInit, Script.ofInit, Node.underExprs] using (token "=").append he.space

/-- Dimensions behind a name. -/
theorem solid_brackets {n : Nat} (h : 0 < n) : (Outline.brackets n).solid = true := by
  cases n with
  | zero => cases h
  | succ n => simp [Outline.brackets, List.replicate_succ]

theorem ofFragment (s : Setting) (f : Fragment) :
    Tracks j stray .before .behind (Outline.ofFragment f) false
      (faults s.isCpp (Node.underFragment f)) (Script.ofFragment s f) := by
  refine frame s.isCpp (.fragment f) _ rfl fun _ => ?_
  have hrest : Tracks j stray .behind .behind (Outline.brackets f.extraDims ++ Outline.ofInit f.init?)
      (Node.isRejected s.isCpp (.fragment f)) (faults s.isCpp (Node.underExprs f.init?.toList))
      (if f.extraDims > 0 then [.reject .variableDims] else Script.ofInit s f.init?) := by
    rw [Node.isRejected]
    by_cases hn : 0 < f.extraDims
    · rw [if_pos hn, decide_eq_true hn, Bool.true_or]
      exact reject _ (by simp [solid_brackets hn])
    · rw [if_neg hn, decide_eq_false hn, Bool.false_or, Nat.eq_zero_of_not_pos hn]
      exact ofInit s f.init?
  simpa using ((optional s.marking (write s.profile.marker)).append (ofName f.name)).append hrest

theorem ofVariables (s : Setting) (words : List String) (v : Variables) :
    Tracks j stray .before .behind (Outline.ofVariables v) false
      (faults s.isCpp (Node.underVariables v)) (Script.ofVariables s words v) := by
  have hfragments : ∀ f ∈ v.fragments, Tracks j stray .before .behind (Outline.ofFragment f) false
      (faults s.isCpp (Node.underFragment f))
      (Script.ofFragment { s with marking := Script.needsMark s v.type } f) :=
    fun f _ => ofFragment { s with marking := Script.needsMark s v.type } f
  simpa [Outline.ofVariables, Script.ofVariables, Node.underVariables, faults_flatMap] using
    ((replaceModifiers v.modifiers words).append (ofType s.profile v.type)).append
      (commaList hfragments)

theorem ofLocals (s : Setting) (v : Variables) :
    Tracks j stray .before .behind (Outline.ofVariables v) false
      (faults s.isCpp (Node.underVariables v)) (Script.ofLocals s v) :=
  ofVariables s _ v

theorem ofParameter (s : Setting) (p : Parameter) :
    Tracks j stray .before .behind (Outline.ofParameter p) false
      (faults s.isCpp (Node.underParameter p)) (Script.ofParameter s p) := by
  rw [Node.underParameter, List.cons_append, List.cons_append]
  refine frame s.isCpp (.parameter p) _ rfl fun _ => ?_
  have hmark : Tracks j stray .behind .before [] false []
      (.copySpace :: if Script.needsMark s p.type then [.write s.profile.marker] else []) :=
    space (optional _ (write _))
  have hdims : Tracks j stray .behind .behind (Outline.brackets p.extraDims)
      (Node.isRejected s.isCpp (.parameter p)) []
      (if p.extraDims > 0 then [.reject .parameterDims] else []) := by
    rw [Node.isRejected]
    by_cases hn : 0 < p.extraDims
    · rw [if_pos hn, decide_eq_true hn]
      exact reject _ (solid_brackets hn)
    · rw [if_neg hn, decide_eq_false hn, Nat.eq_zero_of_not_pos hn]
      exact nil
  simpa using ((((replaceModifiers p.modifiers _).append (ofType s.profile p.type)).append
    hmark).append (ofName p.name)).append hdims

/-! ## Statements -/

theorem ofForInit (s : Setting) (init : ForInit) :
    Tracks j stray .behind .behind (Outline.commaList (Outline.ofForInit init)) false
      (faults s.isCpp (Node.underForInit init)) (Script.commaList (Script.ofForInit s init)) := by
  cases init with
  | exprs es => exact ofExprList s es
  | locals span vars =>
    have h : Tracks j stray .before .behind (Outline.framed span (Outline.ofVariables vars)) false
        (faults s.isCpp (.locals span vars :: Node.underVariables vars))
        (Script.framed span (Script.ofLocals s vars)) :=
      frame s.isCpp (.locals span vars) _ rfl fun _ => ofLocals s vars
    simpa [Outline.ofForInit, Script.ofForInit, Outline.commaList, Script.commaList,
      Node.underForInit] using h.space

theorem ofCondition (s : Setting) (e : Expr) :
    Tracks j stray .behind .behind (Outline.ofCondition e) false
      (faults s.isCpp (Node.underExpr e)) (Script.ofCondition s e) := by
  simpa [Outline.ofCondition, Script.ofCondition] using
    ((token "(").append (ofExpr s e).space).append (token ")")

/-- An expression that may be left out. -/
theorem ofOption (s : Setting) (e? : Option Expr) :
    Tracks j stray .behind .behind (e?.toList.flatMap Outline.ofExpr) false
      (faults s.isCpp (Node.underExprs e?.toList))
      (e?.toList.flatMap fun e => .copySpace :: Script.ofExpr s e) := by
  rw [Node.underExprs_eq, faults_flatMap]
  exact flatMap fun e _ => (ofExpr s e).space

theorem ofJump (word : String) (what : Rejection) (label? : Option SimpleName) :
    Tracks j stray .before .behind (Outline.ofJump word label?) label?.isSome []
      (Script.ofJump word what label?) := by
  cases label? with
  | some label => exact reject what (by simp [Outline.ofJump])
  | none => exact (keep word).cons (token ";")

theorem forEachHead (s : Setting) (item : Parameter) (items : Expr) :
    Tracks j stray .before .behind ([Mark.token "for"] ++ [Mark.token "("] ++ Outline.ofParameter item
      ++ [Mark.token ":"] ++ Outline.ofExpr items ++ [Mark.token ")"]) false
      (faults s.isCpp (Node.underParameter item ++ Node.underExpr items))
      (Script.forEachHead s item items) := by
  rw [Script.forEachHead]
  split
  · simpa using (((((keep "for").cons (token "(")).append (ofParameter s item).space).append
      (token ":")).append (ofExpr s items).space).append (token ")")
  · have hin : Tracks j stray .behind .before [.token ":"] false []
        [.copyDelimiter, .swap ":" "in", .copyDelimiter] :=
      of_within (copyDelimiter.cons ((swap ":" "in").cons (of_within copyDelimiter)))
    simpa using (((((swap "for" "foreach").cons (token "(")).append
      (ofParameter s item).space).append hin).append (ofExpr s items)).append (token ")")

mutual

/-- Blocks need a method around them. -/
theorem ofStmt (s : Setting) (hs : stray = false → s.inBody = true) (t : Stmt) :
    Tracks j stray .before .behind (Outline.ofStmt t) false (faults s.isCpp (Node.underStmt t))
      (Script.ofStmt s t) := by
  cases t with
  | block span body =>
    rw [Outline.ofStmt, Script.ofStmt, Node.underStmt]
    refine frame s.isCpp _ _ rfl fun _ => ?_
    split
    · simpa [Node.isRejected] using
        ((keep "\x7b").cons (ofStmts s hs body)).append (token "\x7d")
    · exact strayBlock (by cases stray <;> simp_all)
  | locals span vars =>
    rw [Outline.ofStmt, Script.ofStmt, Node.underStmt]
    refine frame s.isCpp _ _ rfl fun _ => ?_
    simpa [Node.isRejected] using (ofLocals s vars).append (token ";")
  | expr span e =>
    rw [Outline.ofStmt, Script.ofStmt, Node.underStmt]
    refine frame s.isCpp _ _ rfl fun _ => ?_
    simpa [Node.isRejected] using (ofExpr s e).append (token ";")
  | ifThen span condition yes =>
    rw [Outline.ofStmt, Script.ofStmt, Node.underStmt, List.cons_append]
    refine frame s.isCpp _ _ rfl fun _ => ?_
    simpa [Node.isRejected] using
      ((keep "if").cons (ofCondition s condition)).append (ofStmt s hs yes).space
  | ifElse span condition yes no =>
    rw [Outline.ofStmt, Script.ofStmt, Node.underStmt, List.cons_append, List.cons_append]
    refine frame s.isCpp _ _ rfl fun _ => ?_
    simpa [Node.isRejected] using
      ((((keep "if").cons (ofCondition s condition)).append (ofStmt s hs yes).space).append
        (token "else")).append (ofStmt s hs no).space
  | whileLoop span condition body =>
    rw [Outline.ofStmt, Script.ofStmt, Node.underStmt, List.cons_append]
    refine frame s.isCpp _ _ rfl fun _ => ?_
    simpa [Node.isRejected] using
      ((keep "while").cons (ofCondition s condition)).append (ofStmt s hs body).space
  | doLoop span body condition =>
    rw [Outline.ofStmt, Script.ofStmt, Node.underStmt, List.cons_append]
    refine frame s.isCpp _ _ rfl fun _ => ?_
    simpa [Node.isRejected] using
      ((((keep "do").cons (ofStmt s hs body).space).append (token "while")).append
        (ofCondition s condition)).append (token ";")
  | forLoop span init condition? updates body =>
    rw [Outline.ofStmt, Script.ofStmt, Node.underStmt, List.cons_append, List.cons_append,
      List.cons_append]
    refine frame s.isCpp _ _ rfl fun _ => ?_
    simpa [Node.isRejected] using
      ((((((((keep "for").cons (token "(")).append (ofForInit s init)).append (token ";")).append
        (ofOption s condition?)).append (token ";")).append (ofExprList s updates)).append
        (token ")")).append (ofStmt s hs body).space
  | forEach span item items body =>
    rw [Outline.ofStmt, Script.ofStmt, Node.underStmt, List.cons_append, List.cons_append]
    refine frame s.isCpp _ _ rfl fun _ => ?_
    simpa [Node.isRejected] using (forEachHead s item items).append (ofStmt s hs body).space
  | ret span value? =>
    rw [Outline.ofStmt, Script.ofStmt, Node.underStmt]
    refine frame s.isCpp _ _ rfl fun _ => ?_
    simpa [Node.isRejected] using ((keep "return").cons (ofOption s value?)).append (token ";")
  | leave span label? =>
    rw [Outline.ofStmt, Script.ofStmt, Node.underStmt]
    refine frame s.isCpp _ _ rfl fun _ => ?_
    simpa [Node.isRejected] using ofJump "break" .labeledBreak label?
  | next span label? =>
    rw [Outline.ofStmt, Script.ofStmt, Node.underStmt]
    refine frame s.isCpp _ _ rfl fun _ => ?_
    simpa [Node.isRejected] using ofJump "continue" .labeledContinue label?
  | throwing span e =>
    rw [Outline.ofStmt, Script.ofStmt, Node.underStmt]
    refine frame s.isCpp _ _ rfl fun _ => ?_
    simpa [Node.isRejected] using ((keep "throw").cons (ofExpr s e).space).append (token ";")
  | empty span => exact frame s.isCpp (.stmt (.empty span)) [] rfl fun _ => keep ";"

theorem ofStmts (s : Setting) (hs : stray = false → s.inBody = true) (ts : List Stmt) :
    Tracks j stray .behind .behind (Outline.ofStmts ts) false (faults s.isCpp (Node.underStmts ts))
      (Script.ofStmts s ts) := by
  cases ts with
  | nil => exact nil
  | cons t ts =>
    simpa [Outline.ofStmts, Script.ofStmts, Node.underStmts] using
      (ofStmt s hs t).space.append (ofStmts s hs ts)

end

end Transcribe.Tracks
