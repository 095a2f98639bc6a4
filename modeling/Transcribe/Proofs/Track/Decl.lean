/-
  Transcribe.Proofs.Track.Decl — fields, methods and types keep to their outlines.

  Where method bodies stand apart the declaration of a type passes over them, so what it can be
  blamed for are the nodes outside of bodies (`writtenMember`). The outline has the bodies, and the
  script moves the pen to where a body ends.
-/

import Transcribe.Proofs.Track.Stmt
import Transcribe.Script.Decl

namespace Transcribe

open Java (Modifier Field Method TypeHead TypeParameter Member Ty Access Node)
open Java.Node (ofName underModifiers underType underTypes underParameter underVariables underBlock
  underHead)

/-! ## What is written of a declaration -/

def Setting.keepsBodies (s : Setting) : Bool := !(s.isCpp && !s.defining)

def writtenMethod (bodies : Bool) (m : Method) : List Node :=
  .method m :: underModifiers m.modifiers ++ underTypes m.returnType?.toList ++ ofName m.name
    :: m.parameters.flatMap underParameter ++ underTypes m.thrown
    ++ if bodies then m.body?.toList.flatMap underBlock else []

theorem writtenMethod_true (m : Method) : writtenMethod true m = Node.underMethod m := by
  simp [writtenMethod, Node.underMethod]

mutual

def writtenMember (bodies : Bool) : Member → List Node
  | .field f => Node.field f :: underVariables f.vars
  | .method m => writtenMethod bodies m
  | .type h body => Node.decl ⟨h, body⟩ :: underHead h ++ writtenMembers bodies body

def writtenMembers (bodies : Bool) : List Member → List Node
  | [] => []
  | m :: ms => writtenMember bodies m ++ writtenMembers bodies ms

end

mutual

theorem writtenMember_true (m : Member) : writtenMember true m = Node.underMember m := by
  cases m with
  | field f => rw [writtenMember, Node.underMember]
  | method m => rw [writtenMember, Node.underMember, writtenMethod_true]
  | type h body => rw [writtenMember, Node.underMember, writtenMembers_true body]

theorem writtenMembers_true (ms : List Member) : writtenMembers true ms = Node.underMembers ms := by
  cases ms with
  | nil => rfl
  | cons m ms =>
    rw [writtenMembers, Node.underMembers, writtenMember_true m, writtenMembers_true ms]

end

namespace Tracks

variable {j : Job} {stray : Bool} {a : Stance}

/-! ## Fields and methods -/

theorem ofField (s : Setting) (f : Field) :
    Tracks j stray .before .behind (Outline.ofField f) false
      (faults s.isCpp (.field f :: underVariables f.vars)) (Script.ofField s f) := by
  refine frame s.isCpp (.field f) _ rfl fun _ => ?_
  simpa [Node.isRejected] using (ofVariables s (Script.fieldWords s f) f.vars).append (token ";")

theorem ofReturnType (s : Setting) (m : Method) :
    Tracks j stray .before .before (m.returnType?.toList.flatMap Outline.ofType) false []
      (Script.ofReturnType s m) := by
  have h : ∀ t ∈ m.returnType?.toList, Tracks j stray .before .before (Outline.ofType t) false []
      (Script.ofMarkedType s.profile t ++ [Stroke.copyDelimiter]) := fun t _ => by
    simpa using (ofMarkedType s.profile t).append (of_within copyDelimiter)
  simpa [Script.ofReturnType] using flatMap h

theorem ofParameterList (s : Setting) (m : Method) :
    Tracks j stray .behind .behind (Outline.ofParameterList m.parameters) false
      (faults s.isCpp (m.parameters.flatMap underParameter)) (Script.ofParameterList s m) := by
  have h : ∀ p ∈ m.parameters, Tracks j stray .before .behind (Outline.ofParameter p) false
      (faults s.isCpp (underParameter p)) (Script.ofParameter s p) := fun p _ => ofParameter s p
  simpa [Outline.ofParameterList, Script.ofParameterList, faults_flatMap] using
    ((token "(").append (commaList h)).append (token ")")

/-- The types a method throws are passed over. -/
theorem dropThrows (m : Method) :
    Tracks j stray .behind .behind (Outline.ofClause "throws" m.thrown) false []
      (Script.dropThrows m) := by
  unfold Script.dropThrows
  cases hlast : m.thrown.getLast? with
  | none =>
    rw [List.getLast?_eq_none_iff.1 hlast]
    exact nil
  | some t =>
    obtain ⟨ts, hts⟩ := List.getLast?_eq_some_iff.1 hlast
    have hne : m.thrown.isEmpty = false := by simp [hts]
    obtain ⟨pre, hpre⟩ := Outline.commaList_concat (ts.map Outline.ofType) (Outline.ofType t)
    obtain ⟨body, hbody⟩ := Outline.ofType_framed t
    rw [Outline.ofClause, hne, hts, List.map_append, List.map_singleton, hpre, hbody]
    refine gap ((drop "throws").cons (of_within (jump (by simp) fun o o' hr => ?_)))
    obtain ⟨x, -, hr⟩ := Outline.reads_append.1 hr
    exact hr.stop_eq

theorem ofMethodBody (s : Setting) (m : Method) :
    Tracks j stray .behind .behind (Outline.ofMethodBody m.body?) false
      (faults s.isCpp (if s.keepsBodies then m.body?.toList.flatMap underBlock else []))
      (Script.ofMethodBody s m) := by
  unfold Script.ofMethodBody
  cases m.body? with
  | none =>
    have hpure : Tracks j stray .behind .before [] false []
        (.copySpace :: if Script.isPure s m then [.write " = 0"] else []) := space (optional _ (write _))
    simpa [Outline.ofMethodBody] using hpure.append (keep ";")
  | some b =>
    rw [Setting.keepsBodies]
    cases hskip : s.isCpp && !s.defining with
    | true =>
      have hjump : Tracks j stray .within .behind (Outline.ofBlock b) false []
          [.moveTo b.span.stop] := by
        rw [Outline.ofBlock, Outline.ofStmt]
        exact jump (by simp) fun _ _ => Outline.Reads.stop_eq
      exact of_within ((write ";").cons hjump)
    | false =>
      have hblock : Tracks j stray .before .behind (Outline.ofBlock b) false
          (faults s.isCpp (underBlock b))
          (Script.ofStmt { s with inBody := true } (.block b.span b.body)) :=
        ofStmt { s with inBody := true } (fun _ => rfl) (.block b.span b.body)
      simpa [Outline.ofMethodBody] using hblock.space

theorem ofMethod (s : Setting) (m : Method) :
    Tracks j stray .before .behind (Outline.ofMethod m) false
      (faults s.isCpp (writtenMethod s.keepsBodies m)) (Script.ofMethod s m) := by
  unfold writtenMethod
  simp only [List.cons_append]
  refine frame s.isCpp (.method m) _ rfl fun _ => ?_
  simpa [Node.isRejected] using
    ((((((replaceModifiers m.modifiers (Script.methodWords s m)).append (ofReturnType s m)).append
      (optional s.defining (write (s.qualifier ++ "::")))).append (ofName m.name)).append
      (ofParameterList s m)).append (dropThrows m)).append (ofMethodBody s m)

/-! ## Heads of types -/

theorem typeKeyword (s : Setting) (h : TypeHead) :
    Tracks j stray .before .behind [.token (if h.isInterface then "interface" else "class")] false []
      [Script.typeKeyword s h] := by
  unfold Script.typeKeyword
  split
  · exact swap "interface" _
  · exact keep "class"

theorem ofTypeParameters (s : Setting) (h : TypeHead) :
    Tracks j stray .behind .behind (Outline.ofTypeParameters h.typeParameters)
      (s.isCpp && !h.typeParameters.isEmpty) [] (Script.ofTypeParameters s h) := by
  unfold Outline.ofTypeParameters Script.ofTypeParameters
  cases h.typeParameters.isEmpty with
  | true => rw [Bool.not_true, Bool.and_false]; exact nil
  | false =>
    cases s.isCpp with
    | true => exact reject _ (by simp)
    | false =>
      have hp : ∀ p ∈ h.typeParameters, Tracks j stray .before .behind (Outline.ofTypeParameter p)
          false [] (Script.ofTypeParameter p) := fun p _ => ofTypeParameter p
      simpa using ((token "<").append (commaList hp)).append (token ">")

theorem ofSupertype (s : Setting) (t : Ty) :
    Tracks j stray .before .behind (Outline.ofType t) false [] (Script.ofSupertype s t) := by
  simpa [Script.ofSupertype] using (optional s.isCpp (write "public ")).append (ofType s.profile t)

theorem ofSupertypeList (s : Setting) (ts : List Ty) :
    Tracks j stray .behind .behind (Outline.commaList (ts.map Outline.ofType)) false []
      (Script.commaList (ts.map (Script.ofSupertype s))) := by
  have h : ∀ t ∈ ts, Tracks j stray .before .behind (Outline.ofType t) false []
      (Script.ofSupertype s t) := fun t _ => ofSupertype s t
  simpa using commaList h

/-- A clause of supertypes with another word in front. -/
theorem ofClause (s : Setting) (word target : String) (t : Ty) (ts : List Ty) :
    Tracks j stray .before .behind (Outline.ofClause word (t :: ts)) false []
      (.swap word target :: Script.commaList ((t :: ts).map (Script.ofSupertype s))) :=
  (swap word target).cons (ofSupertypeList s (t :: ts))

theorem ofSupertypes (s : Setting) (h : TypeHead) :
    Tracks j stray .behind .behind
      (Outline.ofClause "extends" h.extended ++ Outline.ofClause "implements" h.implemented) false []
      (Script.ofSupertypes s h) := by
  unfold Script.ofSupertypes
  cases h.extended with
  | nil =>
    cases h.implemented with
    | nil => exact nil
    | cons i is => exact (ofClause s "implements" ":" i is).space
  | cons e es =>
    cases h.implemented with
    | nil => simpa [Outline.ofClause] using (ofClause s "extends" ":" e es).space
    | cons i is =>
      exact (ofClause s "extends" ":" e es).space.append (ofClause s "implements" "," i is).gap

theorem ofHead (s : Setting) (h : TypeHead) :
    Tracks j stray .before .behind (Outline.ofHead h) (s.isCpp && !h.typeParameters.isEmpty) []
      (Script.ofHead s h) := by
  simpa [Outline.ofHead, Script.ofHead] using
    ((((replaceModifiers h.modifiers (Script.typeWords s h)).append
      ((typeKeyword s h).cons (ofName h.name).space)).append (ofTypeParameters s h)).append
      (ofSupertypes s h)).append (token "\x7b")

/-! ## Types -/

theorem labelFor (s : Setting) {owner : TypeHead} (ho : j.source.Boundary owner.span.start)
    (current : Access) (m : Member) :
    Tracks j stray .behind .within [] false [] (Script.labelFor s owner current m) := by
  unfold Script.labelFor
  split
  · exact of_within (label _ _ ho)
  · exact nil.to_within

theorem ofEnd (s : Setting) (h : TypeHead) :
    Tracks j stray .behind .behind [.token "\x7d"] false [] (Script.ofEnd s h) := by
  refine space ((swap "\x7d" _).cons (?_ : Tracks j stray .behind .behind [] false [] _))
  split
  · exact of_within (copyLine.cons trail)
  · exact nil

mutual

theorem ofMember (s : Setting) (m : Member) :
    Tracks j stray .before .behind (Outline.ofMember m) false
      (faults s.isCpp (writtenMember s.keepsBodies m)) (Script.ofMember s m) := by
  cases m with
  | field f =>
    rw [Outline.ofMember, Script.ofMember, writtenMember]
    exact ofField s f
  | method m =>
    rw [Outline.ofMember, Script.ofMember, writtenMember]
    exact ofMethod s m
  | type h body =>
    rw [Outline.ofMember, Script.ofMember, writtenMember, List.cons_append]
    refine frame s.isCpp (.decl ⟨h, body⟩) _ rfl fun ho => ?_
    have hbody : Tracks j stray .behind .behind (Outline.ofMembers body) false
        (faults s.isCpp (writtenMembers s.keepsBodies body))
        (Script.ofMembers { s with enclosing? := some h } h .priv body) :=
      ofMembers { s with enclosing? := some h } ho .priv body
    simpa [Node.isRejected] using ((ofHead s h).append hbody).append (ofEnd s h)

theorem ofMembers (s : Setting) {owner : TypeHead} (ho : j.source.Boundary owner.span.start)
    (current : Access) (ms : List Member) :
    Tracks j stray .behind .behind (Outline.ofMembers ms) false
      (faults s.isCpp (writtenMembers s.keepsBodies ms)) (Script.ofMembers s owner current ms) := by
  cases ms with
  | nil => exact nil
  | cons m ms =>
    have h := (((labelFor s ho current m).append (ofMember s m).space).append
      (ofMembers s ho (Script.memberAccess owner m) ms))
    simpa [Outline.ofMembers, Script.ofMembers, writtenMembers] using h

end

end Tracks

end Transcribe
