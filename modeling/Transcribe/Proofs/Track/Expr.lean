/-
  Transcribe.Proofs.Track.Expr — types and expressions keep to their outlines.

  The proofs go through the trees, one case for each kind of node: a case puts the rules of the
  script's pieces together in the order of the script.
-/

import Transcribe.Proofs.Track.Basic

namespace Transcribe.Tracks

open Java (Ty SimpleType TypeParameter Expr Node)
open Target (Profile)

variable {j : Job} {stray : Bool} {a : Stance}

/-! ## Types -/

theorem ofSimpleType (p : Profile) (t : SimpleType) :
    Tracks j stray .before .behind (Outline.ofSimpleType t) false [] (Script.ofSimpleType p t) := by
  refine frame false (.type (.simple t)) [] rfl fun _ => ?_
  simpa [Node.isRejected] using (dropName t.name).append (write (Script.className p t))

theorem marked {p : Profile} {t : Ty} {m : Outline} {r : Script}
    (h : Tracks j stray a .behind m false [] r) :
    Tracks j stray a .behind m false [] (Script.marked p t r) := by
  rw [Script.marked]
  split
  · simpa using h.append (write p.marker)
  · exact h

/-- A pair of brackets, kept or left out. -/
theorem keepBrackets (n : Nat) :
    Tracks j stray .behind .behind (Outline.brackets n) false [] (Script.keepBrackets n) := by
  induction n with
  | zero => exact nil
  | succ n ih =>
    simpa [Outline.brackets, Script.keepBrackets, List.replicate_succ] using
      ((token "[").append (token "]")).append ih

theorem nil_intercalate {α : Type} (as : List (List α)) : [].intercalate as = as.flatten := by
  induction as with
  | nil => rfl
  | cons x as ih =>
    cases as with
    | nil => simp
    | cons y as => simpa [List.intercalate] using ih

theorem closeArrays (p : Profile) (n : Nat) :
    Tracks j stray .behind .behind (Outline.brackets n) false [] (Script.closeArrays p n) := by
  cases n with
  | zero => exact nil
  | succ n =>
    have hpair : Tracks j stray .behind .behind [.token "[", .token "]"] false []
        [.skipSpace, .drop "[", .skipSpace, .drop "]", .write ">"] :=
      gap ((drop "[").cons (gap ((drop "]").cons (write ">"))))
    have hne : List.replicate (n + 1) () ≠ [] := by simp
    have h := intercalate hne (fun _ _ => hpair) (write p.marker)
    simpa [Outline.brackets, Script.closeArrays, nil_intercalate] using h

theorem ofArguments_eq (p : Profile) (ts : List Ty) :
    Script.ofArguments p ts = ts.map fun t => Script.marked p t (Script.ofType p t) := by
  induction ts with
  | nil => rfl
  | cons t ts ih => rw [Script.ofArguments, ih, List.map_cons]

mutual

theorem ofType (p : Profile) (t : Ty) :
    Tracks j stray .before .behind (Outline.ofType t) false [] (Script.ofType p t) := by
  cases t with
  | primitive span k => exact frame false (.type (.primitive span k)) [] rfl fun _ => swap _ _
  | simple t => exact ofSimpleType p t
  | array span element dims =>
    rw [Outline.ofType, Script.ofType]
    refine frame false (.type (.array span element dims)) [] rfl fun _ => ?_
    have helement := ofType p element
    split
    · simpa [Node.isRejected] using
        ((writes (List.replicate dims "Array<")).append (marked helement)).append (closeArrays p dims)
    · simpa [Node.isRejected] using helement.append (keepBrackets dims)
  | generic span base arguments =>
    rw [Outline.ofType, Script.ofType]
    refine frame false (.type (.generic span base arguments)) [] rfl fun _ => ?_
    have harguments := commaList fun t ht => marked (p := p) (t := t) (ofTypes p arguments t ht)
    rw [Outline.ofTypes_eq, ofArguments_eq]
    simpa [Node.isRejected] using
      (((ofSimpleType p base).append (token "<")).append harguments).append (token ">")

theorem ofTypes (p : Profile) (ts : List Ty) : ∀ t ∈ ts,
    Tracks j stray .before .behind (Outline.ofType t) false [] (Script.ofType p t) := by
  cases ts with
  | nil => simp
  | cons t ts =>
    exact List.forall_mem_cons.2 ⟨ofType p t, ofTypes p ts⟩

end

theorem ofMarkedType (p : Profile) (t : Ty) :
    Tracks j stray .before .behind (Outline.ofType t) false [] (Script.ofMarkedType p t) :=
  marked (ofType p t)

theorem ofTypeParameter (t : TypeParameter) :
    Tracks j stray .before .behind (Outline.ofTypeParameter t) false [] (Script.ofTypeParameter t) :=
  frame false (.typeParameter t) [] rfl fun _ => ofName t.name

/-! ## Expressions -/

variable {s : Setting}

theorem ofExprs_eq (s : Setting) (es : List Expr) :
    Script.ofExprs s es = es.map (Script.ofExpr s) := by
  induction es with
  | nil => rfl
  | cons e es ih => rw [Script.ofExprs, ih, List.map_cons]

theorem selector (e : Expr) : Tracks j stray a .before [.token "."] false [] (Script.selector s e) :=
  space ((swap "." _).cons (of_within copySpace))

theorem newWord : Tracks j stray .before .before [.token "new"] false [] Script.newWord :=
  (keep "new").cons (of_within copyDelimiter)

theorem openArray (p : Profile) (t : Ty) :
    Tracks j stray .before .behind ([Mark.token "new"] ++ Outline.ofType t ++ [Mark.token "["]) false []
      (Script.openArray p t) := by
  have hopen : Tracks j stray .behind .behind [.token "["] false []
      [.write ">", .skipSpace, .swap "[" "("] := (write ">").cons (gap (swap "[" "("))
  simpa [Script.openArray] using
    (newWord.append ((write "Array<").cons (ofMarkedType p t))).append hopen

section

variable {α : Type} {as : List α} {f : α → Script} {g : α → Outline} {k : α → List Node}
  (h : ∀ x ∈ as, Tracks j stray .before .behind (g x) false (k x) (f x))
include h

theorem ofArgumentList : Tracks j stray .behind .behind (Outline.ofArgumentList (as.map g)) false
    (as.flatMap k) (Script.ofArgumentList (as.map f)) := by
  simpa [Outline.ofArgumentList, Script.ofArgumentList] using
    ((token "(").append (commaList h)).append (token ")")

theorem ofItems : Tracks j stray .before .behind (Outline.ofItems (as.map g)) false
    (as.flatMap k) (Script.ofItems (as.map f)) := by
  have hcomma : Tracks j stray .behind .within [.maybe ","] false [] [.copySpace, .keepIf ","] :=
    space (keepIf ",")
  simpa [Script.ofItems, Outline.ofItems] using
    (((keep "\x7b").cons (commaList h)).append hcomma).append (token "\x7d")

theorem newSizedCpp (p : Profile) (t : Ty) (n : Nat) :
    Tracks j stray .before .behind ([Mark.demand (!as.isEmpty), .token "new"] ++ Outline.ofType t
      ++ Outline.ofLengths (as.map g) ++ Outline.brackets n) (decide (1 < as.length + n))
      (as.flatMap k) (Script.newSizedCpp p t (as.map f) n) := by
  unfold Script.newSizedCpp
  rw [List.length_map]
  by_cases hn : 1 < as.length + n
  · rw [if_pos hn, decide_eq_true hn]
    exact reject _ (by simp [Outline.solid])
  · rw [if_neg hn, decide_eq_false hn]
    refine demand fun hne => ?_
    cases as with
    | nil => simp at hne
    | cons x as =>
      obtain rfl : as = [] := List.eq_nil_of_length_eq_zero (by simp at hn; omega)
      obtain rfl : n = 0 := by simp at hn; omega
      have hend : Tracks j stray .behind .behind [.token "]"] false [] [.copySpace, .swap "]" ")"] :=
        space (swap "]" ")")
      simpa [Outline.ofLengths, Outline.brackets] using
        ((openArray p t).append (h x List.mem_cons_self).space).append hend

theorem newSizedCsharp (p : Profile) (t : Ty) (n : Nat) :
    Tracks j stray .before .behind ([Mark.demand (!as.isEmpty), .token "new"] ++ Outline.ofType t
      ++ Outline.ofLengths (as.map g) ++ Outline.brackets n) false
      (as.flatMap k) (Script.newSizedCsharp p t (as.map f) n) := by
  have hlengths := flatMap fun x hx =>
    ((token "[").append (h x hx).space (a := .behind)).append (token "]")
  refine demand fun _ => ?_
  simpa [Script.newSizedCsharp, Outline.ofLengths, List.flatMap_map] using
    ((newWord.append (ofType p t)).append hlengths).append (keepBrackets n)

end

theorem newListedCpp {m : Outline} {ns : List Node} {r : Script}
    (h : Tracks j stray .before .behind m false ns r) (p : Profile) (t : Ty) (n : Nat) :
    Tracks j stray .before .behind ([Mark.demand (0 < n), .token "new"] ++ Outline.ofType t
      ++ Outline.brackets n ++ m) (decide (1 < n)) ns (Script.newListedCpp p t n r) := by
  rw [Script.newListedCpp]
  by_cases hn : 1 < n
  · rw [if_pos hn, decide_eq_true hn]
    exact reject _ (by simp [Outline.solid])
  · rw [if_neg hn, decide_eq_false hn]
    refine demand fun hpos => ?_
    obtain rfl : n = 1 := by simp at hpos; omega
    have hclose : Tracks j stray .behind .before [.token "]"] false []
        [.skipSpace, .drop "]", .skipSpace] := gap ((drop "]").cons (of_within skipSpace))
    simpa [Outline.brackets] using
      (((openArray p t).append hclose).append h).append (write ")")

theorem newListedCsharp {m : Outline} {ns : List Node} {r : Script}
    (h : Tracks j stray .before .behind m false ns r) (p : Profile) (t : Ty) (n : Nat) :
    Tracks j stray .before .behind ([Mark.demand (0 < n), .token "new"] ++ Outline.ofType t
      ++ Outline.brackets n ++ m) false ns (Script.newListedCsharp p t n r) := by
  refine demand fun _ => ?_
  simpa [Script.newListedCsharp] using
    ((newWord.append (ofType p t)).append (keepBrackets n)).append h.space

/-- An operator, which is rejected or kept. -/
theorem ofOperator {m m' : Outline} {ns ns' : List Node} {r r' : Script} {op : String}
    (h : Tracks j stray a .behind m false ns r) (h' : Tracks j stray .before .behind m' false ns' r')
    (hop : op ≠ "") (rejected? : Option Rejection) :
    Tracks j stray a .behind (m ++ [Mark.token op] ++ m') rejected?.isSome (ns ++ ns')
      (Script.ofOperator r op rejected? r') := by
  cases rejected? with
  | some what =>
    have hreject : Tracks j stray .behind .behind ([Mark.token op] ++ m') true ns'
        [.copySpace, .reject what] := space (reject what (by simp [hop]))
    simpa [Script.ofOperator] using h.append hreject
  | none =>
    have hkeep : Tracks j stray .behind .before [.token op] false []
        [.copySpace, .keep op, .copySpace] := space ((keep op).cons (of_within copySpace))
    simpa [Script.ofOperator] using (h.append hkeep).append h'

theorem isSome_rejectedAssign? (s : Setting) (op : Java.AssignOp) :
    (Script.rejectedAssign? s op).isSome = (s.isCpp && op == .unsignedRightShift) := by
  unfold Script.rejectedAssign?
  split <;> simp_all

theorem isSome_rejectedInfix? (s : Setting) (op : Java.InfixOp) :
    (Script.rejectedInfix? s op).isSome = (s.isCpp && op == .unsignedRightShift) := by
  unfold Script.rejectedInfix?
  split <;> simp_all

mutual

theorem ofExpr (s : Setting) (e : Expr) :
    Tracks j stray .before .behind (Outline.ofExpr e) false (faults s.isCpp (Node.underExpr e))
      (Script.ofExpr s e) := by
  cases e with
  | literal span kind word =>
    refine frame s.isCpp (.expr (.literal span kind word)) [] rfl fun _ => demand fun hword => ?_
    rw [Script.literalWord]
    split
    · rename_i hnull
      obtain rfl : word = "null" := by simp_all
      exact swap "null" "nullptr"
    · exact keep word
  | name n => exact ofName n
  | self span => exact frame s.isCpp (.expr (.self span)) [] rfl fun _ => keep "this"
  | field span target name =>
    rw [Outline.ofExpr, Script.ofExpr, Node.underExpr, List.cons_append]
    refine frame s.isCpp _ _ rfl fun _ => ?_
    simpa [Node.isRejected] using ((ofExpr s target).append (selector target)).append (ofName name)
  | call span name arguments =>
    rw [Outline.ofExpr, Script.ofExpr, Node.underExpr]
    refine frame s.isCpp _ _ rfl fun _ => ?_
    rw [Outline.ofExprs_eq, ofExprs_eq, Node.underExprs_eq]
    simpa [Node.isRejected, faults_flatMap] using
      (ofName name).append (ofArgumentList (ofExprs s arguments))
  | invoke span target name arguments =>
    rw [Outline.ofExpr, Script.ofExpr, Node.underExpr, List.cons_append]
    refine frame s.isCpp _ _ rfl fun _ => ?_
    rw [Outline.ofExprs_eq, ofExprs_eq, Node.underExprs_eq]
    simpa [Node.isRejected, faults_flatMap] using
      (((ofExpr s target).append (selector target)).append (ofName name)).append
        (ofArgumentList (ofExprs s arguments))
  | create span type arguments =>
    rw [Outline.ofExpr, Script.ofExpr, Node.underExpr, List.cons_append]
    refine frame s.isCpp _ _ rfl fun _ => ?_
    rw [Outline.ofExprs_eq, ofExprs_eq, Node.underExprs_eq]
    simpa [Node.isRejected, faults_flatMap] using
      (newWord.append (ofType s.profile type)).append (ofArgumentList (ofExprs s arguments))
  | newSized span element lengths extraDims =>
    rw [Outline.ofExpr, Script.ofExpr, Node.underExpr, List.cons_append]
    refine frame s.isCpp _ _ rfl fun _ => ?_
    rw [Outline.ofExprs_eq, ofExprs_eq, Node.underExprs_eq]
    cases hc : s.isCpp with
    | true =>
      have h := newSizedCpp (ofExprs s lengths) s.profile element extraDims
      simpa [Node.isRejected, faults_flatMap, hc] using h
    | false =>
      have h := newSizedCsharp (ofExprs s lengths) s.profile element extraDims
      simpa [Node.isRejected, faults_flatMap, hc] using h
  | newListed span element extraDims listSpan items =>
    rw [Outline.ofExpr, Script.ofExpr, Node.underExpr, List.cons_append]
    refine frame s.isCpp _ (Node.underType element ++ _) rfl fun _ => ?_
    rw [faults_append, faults_underType]
    have hitems : Tracks j stray .before .behind
        (Outline.framed listSpan (Outline.ofItems (Outline.ofExprs items))) false
        (faults s.isCpp (.expr (.arrayInit listSpan items) :: Node.underExprs items))
        (Script.framed listSpan (Script.ofItems (Script.ofExprs s items))) := by
      refine frame s.isCpp _ _ rfl fun _ => ?_
      rw [Outline.ofExprs_eq, ofExprs_eq, Node.underExprs_eq, faults_flatMap]
      exact ofItems (ofExprs s items)
    cases hc : s.isCpp with
    | true =>
      rw [hc] at hitems
      exact newListedCpp hitems s.profile element extraDims
    | false =>
      rw [hc] at hitems
      exact newListedCsharp hitems s.profile element extraDims
  | arrayInit span items =>
    rw [Outline.ofExpr, Script.ofExpr, Node.underExpr]
    refine frame s.isCpp _ _ rfl fun _ => ?_
    rw [Outline.ofExprs_eq, ofExprs_eq, Node.underExprs_eq, faults_flatMap]
    exact ofItems (ofExprs s items)
  | index span array position =>
    rw [Outline.ofExpr, Script.ofExpr, Node.underExpr, List.cons_append]
    refine frame s.isCpp _ _ rfl fun _ => ?_
    simpa [Node.isRejected] using
      (((ofExpr s array).append (token "[")).append (ofExpr s position).space).append (token "]")
  | assign span left op right =>
    rw [Outline.ofExpr, Script.ofExpr, Node.underExpr, List.cons_append]
    refine frame s.isCpp _ _ rfl fun _ => ?_
    have hop : Java.word op ≠ "" := by cases op <;> decide
    have h := ofOperator (ofExpr s left) (ofExpr s right) hop (Script.rejectedAssign? s op)
    rw [isSome_rejectedAssign?] at h
    rwa [faults_append]
  | binary span left op right =>
    rw [Outline.ofExpr, Script.ofExpr, Node.underExpr, List.cons_append]
    refine frame s.isCpp _ _ rfl fun _ => ?_
    have hop : Java.word op ≠ "" := by cases op <;> decide
    have h := ofOperator (ofExpr s left) (ofExpr s right) hop (Script.rejectedInfix? s op)
    rw [isSome_rejectedInfix?] at h
    rwa [faults_append]
  | instanceOf span operand type =>
    rw [Outline.ofExpr, Script.ofExpr, Node.underExpr, List.cons_append]
    refine frame s.isCpp _ _ rfl fun _ => ?_
    cases hc : s.isCpp with
    | true => exact reject _ (by simp)
    | false =>
      have hword : Tracks j stray .behind .before [.token "instanceof"] false []
          [.copySpace, .swap "instanceof" "is", .copySpace] :=
        space ((swap "instanceof" "is").cons (of_within copySpace))
      have h := ((ofExpr s operand).append hword).append (ofType s.profile type)
      simpa [Node.isRejected, hc] using h
  | prefixed span op operand =>
    rw [Outline.ofExpr, Script.ofExpr, Node.underExpr]
    exact frame s.isCpp _ _ rfl fun _ => (keep (Java.word op)).cons (ofExpr s operand).space
  | postfixed span operand op =>
    rw [Outline.ofExpr, Script.ofExpr, Node.underExpr]
    refine frame s.isCpp _ _ rfl fun _ => ?_
    simpa [Node.isRejected] using (ofExpr s operand).append (token (Java.word op))
  | conditional span condition yes no =>
    rw [Outline.ofExpr, Script.ofExpr, Node.underExpr, List.cons_append, List.cons_append]
    refine frame s.isCpp _ _ rfl fun _ => ?_
    simpa [Node.isRejected] using
      ((((ofExpr s condition).append (token "?")).append (ofExpr s yes).space).append
        (token ":")).append (ofExpr s no).space
  | paren span inner =>
    rw [Outline.ofExpr, Script.ofExpr, Node.underExpr]
    refine frame s.isCpp _ _ rfl fun _ => ?_
    simpa [Node.isRejected] using ((keep "(").cons (ofExpr s inner).space).append (token ")")
  | cast span type operand =>
    rw [Outline.ofExpr, Script.ofExpr, Node.underExpr, List.cons_append]
    refine frame s.isCpp _ _ rfl fun _ => ?_
    simpa [Node.isRejected] using
      (((keep "(").cons (ofMarkedType s.profile type).space).append (token ")")).append
        (ofExpr s operand).space

theorem ofExprs (s : Setting) (es : List Expr) : ∀ e ∈ es,
    Tracks j stray .before .behind (Outline.ofExpr e) false (faults s.isCpp (Node.underExpr e))
      (Script.ofExpr s e) := by
  cases es with
  | nil => simp
  | cons e es => exact List.forall_mem_cons.2 ⟨ofExpr s e, ofExprs s es⟩

end

theorem ofExprList (s : Setting) (es : List Expr) :
    Tracks j stray .behind .behind (Outline.commaList (Outline.ofExprs es)) false
      (faults s.isCpp (Node.underExprs es)) (Script.commaList (Script.ofExprs s es)) := by
  rw [Outline.ofExprs_eq, ofExprs_eq, Node.underExprs_eq, faults_flatMap]
  exact commaList (ofExprs s es)

end Transcribe.Tracks
