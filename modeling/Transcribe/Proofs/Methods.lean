/-
  Transcribe.Proofs.Methods — a C++ header and its source file agree on the methods.

  The header has a semicolon where a method has a body, and the source file has the definitions of
  just these methods, each behind the names of the types around it. What is written of the return
  type and of the parameters is the same in both.

  A header leaves a body out by a jump right behind the semicolon it writes, so the bodies that it
  leaves out can be read off its script (`omitted`, `Omits`). The definitions are the methods with a
  body among the nodes below a type, and the types from the outermost one down to the one that
  declares a method are a `Chain`, whose names stand in front of the method's. The texts of a method
  are taken apart into `MethodParts`, with the comments among its modifiers and the words that
  stand in for these (`modifierText`); what the two files share is a matter of `MethodTexts`.
  - `omitted_declarationScript`: the bodies that a header leaves out.
  - `definitions_methods`, `definitions_chain`: the definitions are the methods with a body, each
    with the type that declares it and the names from the outermost type on.
  - `header_source_agree`: with the texts of every declaration and of its definition.
-/

import Mathlib.Data.List.Basic
import Transcribe.Proofs.Emit
import Transcribe.Proofs.Output

namespace Transcribe

open Text (Span Source byteLength)
open Java (Node TypeHead TypeDecl Member Method Modifier Field Parameter CompilationUnit)
open Output (Definition definitions definitionsOf definitionsIn)
open Outline (Reads)

variable {s : Setting} {p : Pen} {d : TypeDecl} {m : Method} {x : Definition}

def Java.Method.bodyEnd? (m : Method) : Option Nat := m.body?.map (·.span.stop)

/-! ## Bodies that a header leaves out -/

namespace Script

def isMove : Stroke → Bool
  | .moveTo _ => true
  | _ => false

def isWrite : Stroke → Bool
  | .write _ => true
  | _ => false

/-- Where a script jumps to right behind a semicolon that it has written. -/
def omitted : Script → List Nat
  | .write t :: .moveTo o :: r => if t = ";" then o :: omitted r else omitted r
  | _ :: r => omitted r
  | [] => []

/-- A script that does not begin with a jump leaves out the bodies that end at `l`. -/
structure Omits (r : Script) (l : List Nat) : Prop where
  omitted : r.omitted = l
  start : r.head?.all (!isMove ·) = true

theorem omitted_append {r r' : Script} (h : r'.head?.all (!isMove ·) = true) :
    (r ++ r').omitted = r.omitted ++ r'.omitted := by
  fun_induction omitted r with
  | case1 o r ih => simp [omitted, ih]
  | case2 t o r ht ih => simp [omitted, ht, ih]
  | case3 st r hst ih =>
    rw [List.cons_append, omitted, ih]
    rintro t o rest rfl hrest
    cases r with
    | nil =>
      rw [List.nil_append] at hrest
      subst hrest
      cases h
    | cons st' r =>
      obtain ⟨rfl, rfl⟩ := List.cons.inj hrest
      exact hst t o r rfl rfl
  | case4 => rfl

namespace Omits

variable {r r' : Script} {l l' : List Nat}

theorem nil : Omits [] [] := ⟨rfl, rfl⟩

theorem append (h : Omits r l) (h' : Omits r' l') : Omits (r ++ r') (l ++ l') := by
  refine ⟨by rw [omitted_append h'.start, h.omitted, h'.omitted], ?_⟩
  cases r with
  | nil => exact h'.start
  | cons st r => exact h.start

theorem of_still (h : r.all (!isMove ·) = true) : Omits r [] := by
  refine ⟨?_, ?_⟩
  · fun_induction Script.omitted r with
    | case1 o r ih => simp [isMove] at h
    | case2 t o r ht ih => simp [isMove] at h
    | case3 st r hst ih => exact ih (Bool.and_eq_true_iff.1 h).2
    | case4 => rfl
  · cases r with
    | nil => rfl
    | cons st r => exact (Bool.and_eq_true_iff.1 h).1

theorem of_unwritten (h : r.all (!isWrite ·) = true) (hstart : r.head?.all (!isMove ·) = true) :
    Omits r [] := by
  refine ⟨?_, hstart⟩
  clear hstart
  fun_induction Script.omitted r with
  | case1 o r ih => simp [isWrite] at h
  | case2 t o r ht ih => simp [isWrite] at h
  | case3 st r hst ih => exact ih (Bool.and_eq_true_iff.1 h).2
  | case4 => rfl

theorem of_level (h : r.all Stroke.isLevel = true) : Omits r [] := by
  refine of_still ?_
  rw [List.all_eq_true] at h ⊢
  intro st hst
  have := h st hst
  cases st <;> first | rfl | cases this

theorem flatMap {α : Type} {as : List α} {f : α → Script} (h : ∀ x ∈ as, Omits (f x) []) :
    Omits (as.flatMap f) [] := by
  induction as with
  | nil => exact nil
  | cons x as ih =>
    exact (h x List.mem_cons_self).append (ih fun y hy => h y (List.mem_cons_of_mem x hy))

/-- Modifiers that are replaced. They begin with a jump, but behind the start of their node. -/
theorem framedModifiers (span : Span) (ms : List Modifier) (words : List String) (h : Omits r l) :
    Omits (Script.framed span (replaceModifiers ms words ++ r)) l := by
  have hmodifiers : Omits (Stroke.enter span :: replaceModifiers ms words) [] := by
    unfold replaceModifiers
    dsimp only
    split
    · exact of_level (by split <;> rfl)
    · rename_i last _
      have hjumps : Omits (Stroke.enter span :: ms.dropLast.flatMap
          (fun m => [Stroke.moveTo m.span.stop, .copyComments]) ++ [Stroke.moveTo last.span.stop]) [] :=
        of_unwritten (by simp [List.all_flatMap, isWrite]) rfl
      split
      · simpa using hjumps.append (of_still (r := [.copyCommentsOrSkip]) rfl)
      · simpa using hjumps.append (of_still (r := [.write _, .copyDelimiter]) rfl)
  have hleave : Omits [.leave span] [] := ⟨rfl, rfl⟩
  simpa [Script.framed] using hmodifiers.append (h.append hleave)

theorem ofParameter (s : Setting) (q : Parameter) : Omits (Script.ofParameter s q) [] := by
  rw [Script.ofParameter, List.append_assoc, List.append_assoc, List.append_assoc]
  refine framedModifiers q.span q.modifiers _ ?_
  have hrest : Omits (.copySpace :: if needsMark s q.type then [.write s.profile.marker] else [])
      [] := of_level (by split <;> rfl)
  have hdims : Omits (if q.extraDims > 0 then [.reject .parameterDims] else []) [] :=
    of_level (by split <;> rfl)
  exact (of_level (level_ofType s.profile q.type)).append
    (hrest.append ((of_level (r := ofName q.name) rfl).append hdims))

theorem ofField (s : Setting) (f : Field) : Omits (Script.ofField s f) [] := by
  rw [Script.ofField, ofVariables, List.append_assoc, List.append_assoc]
  refine framedModifiers f.span f.vars.modifiers _ ?_
  exact (of_level (level_ofType s.profile f.vars.type)).append
    ((of_level (level_fragments _ f.vars.fragments)).append (of_level (r := token ";") rfl))

theorem ofParameterList (s : Setting) (m : Method) : Omits (Script.ofParameterList s m) [] := by
  have hlist : Omits (commaList (m.parameters.map (Script.ofParameter s))) [] := by
    cases m.parameters with
    | nil => exact nil
    | cons q qs =>
      rw [List.map_cons, commaList, List.flatMap_map]
      have hrest : Omits (qs.flatMap fun q => token "," ++ .copySpace :: Script.ofParameter s q) [] :=
        flatMap fun q _ =>
          (of_level (r := [.copySpace, .keep ",", .copySpace]) rfl).append (ofParameter s q)
      exact ((of_level (r := [.copySpace]) rfl).append (ofParameter s q)).append hrest
  exact ((of_level (r := token "(") rfl).append hlist).append (of_level (r := token ")") rfl)

/-- A method in a header leaves out its body. -/
theorem ofMethod (hs : s.isCpp = true) (hpart : s.defining = false) (m : Method) :
    Omits (Script.ofMethod s m) m.bodyEnd?.toList := by
  have hreturn : Omits (ofReturnType s m) [] := by
    unfold ofReturnType
    cases m.returnType? with
    | none => exact nil
    | some t =>
      rw [Option.toList_some, List.flatMap_singleton]
      exact (of_level (level_ofMarkedType s.profile t)).append (of_level rfl)
  have hthrows : Omits (dropThrows m) [] := by
    unfold dropThrows
    split
    · exact of_unwritten rfl rfl
    · exact nil
  have hbody : Omits (ofMethodBody s m) m.bodyEnd?.toList := by
    unfold ofMethodBody Java.Method.bodyEnd?
    cases m.body? with
    | none => exact of_level (by dsimp only; split <;> rfl)
    | some b => exact ⟨by simp [hs, hpart, Script.omitted], by simp [hs, hpart, isMove]⟩
  rw [Script.ofMethod]
  simp only [List.append_assoc]
  refine framedModifiers m.span m.modifiers _ ?_
  simp only [hpart]
  exact hreturn.append (nil.append ((of_level (r := ofName m.name) rfl).append
    ((ofParameterList s m).append (hthrows.append hbody))))

theorem ofHead (s : Setting) (span : Span) (h : TypeHead) {r : Script} {l : List Nat}
    (hr : Omits r l) : Omits (Script.framed span (Script.ofHead s h ++ r)) l := by
  have hkeyword : Omits (typeKeyword s h :: .copySpace :: ofName h.name) [] := by
    unfold typeKeyword
    split <;> exact of_level rfl
  have hparameters : Omits (ofTypeParameters s h) [] := of_level (level_ofTypeParameters s h)
  have hsupers : Omits (ofSupertypes s h) [] := of_level (level_ofSupertypes s h)
  rw [Script.ofHead]
  simp only [List.append_assoc]
  refine framedModifiers span h.modifiers _ ?_
  have hbrace : Omits (token "\x7b") [] := of_level rfl
  simpa using hkeyword.append (hparameters.append (hsupers.append (hbrace.append hr)))

theorem ofEnd (s : Setting) (h : TypeHead) : Omits (Script.ofEnd s h) [] := by
  unfold Script.ofEnd
  cases s.isCpp && isOutermost s h <;> exact of_still rfl

mutual

/-- A member in a header leaves out the bodies of its definitions. -/
theorem ofMember {s : Setting} (hs : s.isCpp = true) (hpart : s.defining = false)
    (owner : TypeHead) (qualifier : String) (m : Member) :
    Omits (Script.ofMember s m)
      ((definitionsOf owner qualifier m).filterMap (·.method.bodyEnd?)) := by
  cases m with
  | field f => exact ofField s f
  | method m =>
    rw [Script.ofMember, definitionsOf]
    have h := ofMethod hs hpart m
    cases hbody : m.body? with
    | none => simpa [Java.Method.bodyEnd?, hbody] using h
    | some b => simpa [Java.Method.bodyEnd?, hbody] using h
  | type h body =>
    rw [Script.ofMember, definitionsOf, List.append_assoc]
    refine ofHead s h.span h ?_
    have hbody := ofMembers (s := { s with enclosing? := some h }) hs hpart h .priv
      (qualifier ++ "::" ++ h.name.text) body
    simpa using hbody.append (ofEnd s h)

theorem ofMembers {s : Setting} (hs : s.isCpp = true) (hpart : s.defining = false)
    (owner : TypeHead) (current : Java.Access) (qualifier : String) (ms : List Member) :
    Omits (Script.ofMembers s owner current ms)
      ((definitionsIn owner qualifier ms).filterMap (·.method.bodyEnd?)) := by
  cases ms with
  | nil => exact nil
  | cons m ms =>
    rw [Script.ofMembers, definitionsIn, List.filterMap_append]
    have hlabel : Omits (labelFor s owner current m ++ [Stroke.copySpace]) [] := by
      unfold labelFor
      split <;> exact of_still rfl
    simpa using (hlabel.append (ofMember hs hpart owner qualifier m)).append
      (ofMembers hs hpart owner (memberAccess owner m) qualifier ms)

end

theorem ofDecl (hs : s.isCpp = true) (hpart : s.defining = false) (d : TypeDecl) :
    Omits (Script.ofDecl s d) ((definitions d).filterMap (·.method.bodyEnd?)) := by
  rw [Script.ofDecl, Script.ofMember, List.append_assoc, definitions]
  refine ofHead s d.head.span d.head ?_
  have hbody := ofMembers (s := { s with enclosing? := some d.head }) hs hpart d.head .priv
    d.head.name.text d.body
  simpa using hbody.append (ofEnd s d.head)

theorem ofPackage (s : Setting) (k : Java.Package) : Omits (Script.ofPackage s k) [] :=
  of_level (admits_ofNode s (n := .package k) nofun)

theorem ofImport (s : Setting) (i : Java.Import) : Omits (Script.ofImport s i) [] := by
  unfold Script.ofImport
  split
  · exact of_level rfl
  · have hjump : Omits [.enter i.span, .drop "import", .moveTo i.span.stop] [] :=
      of_unwritten rfl rfl
    have hline : Omits ((importLine s i).toList.map .write ++ [Stroke.leave i.span]) [] := by
      cases importLine s i <;> exact of_level rfl
    exact hjump.append hline

theorem ofPrologue (s : Setting) (u : CompilationUnit) : Omits (Script.ofPrologue s u) [] := by
  have hspace : Omits [.copySpace] [] := of_level rfl
  have hpackage : Omits (u.package?.toList.flatMap fun k => .copySpace :: Script.ofPackage s k
      ++ if s.isCpp then [Stroke.skipLine, .skipBlankLines] else []) [] := by
    refine flatMap fun k _ => (hspace.append (ofPackage s k)).append ?_
    split <;> exact of_still rfl
  have himports : Omits (u.imports.flatMap fun i => .copySpace :: Script.ofImport s i
      ++ if isDropped s i then [Stroke.skipLine] else []) [] := by
    refine flatMap fun i _ => (hspace.append (ofImport s i)).append ?_
    split <;> exact of_still rfl
  have hline : Omits (if lineOpen s u then [.copyLine] else []) [] := by
    split <;> exact of_still rfl
  refine ((hpackage.append himports).append hline).append ?_
  split
  · split
    · exact of_still rfl
    · split <;> exact of_still rfl
  · split <;> exact of_still rfl

end Omits

end Script

/-- In the header of a type the bodies of its definitions are left out, each behind a semicolon, and
no other text is. -/
theorem omitted_declarationScript {p : Target.Profile} (hp : p.isCpp = true) (u : CompilationUnit)
    (index : Nat) (d : TypeDecl) :
    (Output.declarationScript p u index d).omitted
      = (definitions d).filterMap (·.method.bodyEnd?) := by
  let s := Setting.ofProfile p
  have hpart : s.defining = false := by simp [s, Setting.defining, Setting.ofProfile]
  have hspace : Script.Omits [.copySpace] [] := .of_level rfl
  have hend : Script.Omits (.copyTrail :: Script.ofEpilogue s u) [] := by
    unfold Script.ofEpilogue
    cases s.isCpp && u.package?.isSome <;> exact .of_still rfl
  have hdecl := (hspace.append (.ofDecl (s := s) hp hpart d)).append hend
  -- The jump to the first type of a file without package and imports is its first stroke.
  have hlead : (Script.ofPrologue s u ++ Output.leadScript u index d).omitted = [] := by
    unfold Output.leadScript
    split
    · rename_i hfirst
      simp only [Bool.and_eq_true, beq_iff_eq, Option.isNone_iff_eq_none, List.isEmpty_iff]
        at hfirst
      obtain ⟨⟨-, hpackage⟩, himports⟩ := hfirst
      simp [Script.ofPrologue, Script.lineOpen, hpackage, himports, Script.omitted]
    · exact ((Script.Omits.ofPrologue s u).append (.of_still rfl)).omitted
  have hscript : Output.declarationScript p u index d = (Script.ofPrologue s u
      ++ Output.leadScript u index d) ++ ([Stroke.copySpace] ++ Script.ofDecl s d
        ++ .copyTrail :: Script.ofEpilogue s u) := by
    simp [Output.declarationScript, s]
  rw [hscript, Script.omitted_append hdecl.start, hlead, hdecl.omitted]
  simp

/-! ## The methods that are defined -/

namespace Java.Node

def bodied? : Node → Option Method
  | .method m => if m.body?.isSome then some m else none
  | _ => none

def isInner : Node → Bool
  | .parameter _ | .fragment _ | .modifier _ | .type _ | .typeParameter _ | .stmt _ | .expr _
  | .locals _ _ => true
  | _ => false

theorem isInner_ofVariables (v : Java.Variables) : (ofVariables v).all isInner = true := by
  simp [ofVariables, isInner]

theorem isInner_childrenOfHead (h : TypeHead) : (childrenOfHead h).all isInner = true := by
  simp [childrenOfHead, ofName, isInner]

theorem isInner_children {n : Node} (hn : n.isInner = true) : n.children.all isInner = true := by
  cases n with
  | stmt t =>
    cases t with
    | locals span v => exact isInner_ofVariables v
    | forLoop span init condition? updates body =>
      have hinit : (ofForInit init).all isInner = true := by
        cases init <;> simp [ofForInit, isInner]
      simp [children, childrenOfStmt, hinit, isInner]
    | _ => simp [children, childrenOfStmt, ofName, isInner]
  | type t => cases t <;> simp [children, childrenOfType, isInner]
  | expr e => cases e <;> simp [children, childrenOfExpr, ofName, isInner]
  | locals span v => exact isInner_ofVariables v
  | parameter q | fragment f | modifier m | typeParameter q => simp [children, ofName, isInner]
  | _ => cases hn

/-- There are no methods inside methods. -/
theorem filterMap_inner {ns : List Node} (h : ns.all isInner = true) :
    (ns.flatMap descendants).filterMap bodied? = [] := by
  rw [List.filterMap_eq_nil_iff]
  intro c hc
  obtain ⟨n, hn, hc⟩ := List.mem_flatMap.1 hc
  have hinner : c.isInner = true :=
    Outline.of_mem_descendants (P := fun n => n.isInner = true) (fun n c hn hc => List.all_eq_true.1
      (isInner_children hn) c hc) n (List.all_eq_true.1 h n hn) c hc
  cases c <;> first | rfl | cases hinner

end Java.Node

mutual

theorem definitionsOf_methods (owner : TypeHead) (qualifier : String) (m : Member) :
    (definitionsOf owner qualifier m).map (·.method)
      = (Node.ofMember m).descendants.filterMap Node.bodied? := by
  rw [Node.descendants_eq]
  cases m with
  | field f =>
    have hnone := Node.filterMap_inner (Node.isInner_ofVariables f.vars)
    exact hnone.symm
  | method m =>
    have hchildren : (Node.method m).children.all Node.isInner = true := by
      simp [Node.children, Node.ofName, Node.ofBlock, Node.isInner]
    have hnone := Node.filterMap_inner hchildren
    rw [definitionsOf, Node.ofMember, List.filterMap_cons, hnone, Node.bodied?]
    split <;> rfl
  | type h body =>
    have hhead := Node.filterMap_inner (Node.isInner_childrenOfHead h)
    have hbody := definitionsIn_methods h (qualifier ++ "::" ++ h.name.text) body
    rw [definitionsOf, hbody, Node.ofMember, List.filterMap_cons, Node.children,
      List.flatMap_append, List.filterMap_append, hhead, List.flatMap_map]
    rfl

theorem definitionsIn_methods (owner : TypeHead) (qualifier : String) (ms : List Member) :
    (definitionsIn owner qualifier ms).map (·.method)
      = (ms.flatMap fun m => (Node.ofMember m).descendants).filterMap Node.bodied? := by
  cases ms with
  | nil => rfl
  | cons m ms =>
    rw [definitionsIn, List.map_append, List.flatMap_cons, List.filterMap_append,
      definitionsOf_methods owner qualifier m, definitionsIn_methods owner qualifier ms]

end

theorem definitions_methods (d : TypeDecl) : (definitions d).map (·.method)
    = (Node.decl d).descendants.filterMap Node.bodied? := by
  have hhead := Node.filterMap_inner (Node.isInner_childrenOfHead d.head)
  rw [definitions, definitionsIn_methods, Node.descendants_eq, List.filterMap_cons, Node.children,
    List.flatMap_append, List.filterMap_append, hhead, List.flatMap_map]
  rfl

inductive Chain (d : TypeDecl) : List TypeDecl → TypeDecl → Prop where
  | self : Chain d [d] d
  | inner {path : List TypeDecl} {t : TypeDecl} {h : TypeHead} {body : List Member}
      (chain : Chain d path t) (mem : .type h body ∈ t.body) : Chain d (path ++ [⟨h, body⟩]) ⟨h, body⟩

def chainName (path : List TypeDecl) : String :=
  "::".intercalate (path.map (·.head.name.text))

theorem Chain.ne_nil {t : TypeDecl} {path : List TypeDecl} (h : Chain d path t) : path ≠ [] := by
  cases h <;> simp

theorem chainName_concat {path : List TypeDecl} (h : path ≠ []) (t : TypeDecl) :
    chainName (path ++ [t]) = chainName path ++ "::" ++ t.head.name.text := by
  induction path with
  | nil => exact absurd rfl h
  | cons a path ih =>
    cases path with
    | nil => simp [chainName, String.intercalate_cons_cons]
    | cons b path =>
      have := ih (by simp)
      simp only [chainName, List.cons_append, List.map_cons, String.intercalate_cons_cons] at this ⊢
      rw [this]
      simp [String.append_assoc]

mutual

/-- A definition comes with the type that declares its method and the names down to it. -/
theorem definitionsOf_chain {d t : TypeDecl} {path : List TypeDecl} (hchain : Chain d path t)
    (m : Member) (hm : m ∈ t.body) :
    ∀ x ∈ definitionsOf t.head (chainName path) m, ∃ path' body, Chain d path' ⟨x.owner, body⟩ ∧
      .method x.method ∈ body ∧ x.qualifier = chainName path' := by
  cases m with
  | field f => simp [definitionsOf]
  | method m =>
    intro x hx
    rw [definitionsOf] at hx
    split at hx
    · obtain rfl := List.mem_singleton.1 hx
      exact ⟨path, t.body, hchain, hm, rfl⟩
    · cases hx
  | type h body =>
    have hinner : Chain d (path ++ [⟨h, body⟩]) ⟨h, body⟩ := .inner hchain hm
    have hbody := definitionsIn_chain hinner body fun m hm => hm
    rwa [chainName_concat hchain.ne_nil] at hbody

theorem definitionsIn_chain {d t : TypeDecl} {path : List TypeDecl} (hchain : Chain d path t)
    (ms : List Member) (hms : ∀ m ∈ ms, m ∈ t.body) :
    ∀ x ∈ definitionsIn t.head (chainName path) ms, ∃ path' body, Chain d path' ⟨x.owner, body⟩ ∧
      .method x.method ∈ body ∧ x.qualifier = chainName path' := by
  cases ms with
  | nil => simp [definitionsIn]
  | cons m ms =>
    obtain ⟨hm, hms⟩ := List.forall_mem_cons.1 hms
    intro x hx
    rw [definitionsIn, List.mem_append] at hx
    rcases hx with hx | hx
    · exact definitionsOf_chain hchain m hm x hx
    · exact definitionsIn_chain hchain ms hms x hx

end

theorem definitions_chain (d : TypeDecl) : ∀ x ∈ definitions d, ∃ path body,
    Chain d path ⟨x.owner, body⟩ ∧ .method x.method ∈ body ∧ x.qualifier = chainName path := by
  have hname : d.head.name.text = chainName [d] := by simp [chainName]
  rw [definitions, hname]
  exact definitionsIn_chain .self d.body fun m hm => hm

/-! ## Their order -/

structure Rises (o o' : Nat) (l : List Nat) : Prop where
  pairwise : l.Pairwise (· < ·)
  lower : ∀ e ∈ l, o < e
  upper : ∀ e ∈ l, e ≤ o'

theorem Rises.append {o o' o'' : Nat} {l l' : List Nat} (h : Rises o o' l) (h' : Rises o' o'' l')
    (hle : o ≤ o') (hle' : o' ≤ o'') : Rises o o'' (l ++ l') := by
  refine ⟨List.pairwise_append.2 ⟨h.pairwise, h'.pairwise, fun e he e' he' => ?_⟩, ?_, ?_⟩
  · exact Nat.lt_of_le_of_lt (h.upper e he) (h'.lower e' he')
  · intro e he
    rcases List.mem_append.1 he with he | he
    · exact h.lower e he
    · exact Nat.lt_of_le_of_lt hle (h'.lower e he)
  · intro e he
    rcases List.mem_append.1 he with he | he
    · exact Nat.le_trans (h.upper e he) hle'
    · exact h'.upper e he

theorem Rises.mono {a o o' b : Nat} {l : List Nat} (h : Rises o o' l) (ha : a ≤ o) (hb : o' ≤ b) :
    Rises a b l :=
  ⟨h.pairwise, fun e he => Nat.lt_of_le_of_lt ha (h.lower e he),
    fun e he => Nat.le_trans (h.upper e he) hb⟩

mutual

theorem definitionsOf_rise {s : Source} (owner : TypeHead) (qualifier : String) (m : Member)
    {o o' : Nat} (h : Reads s (Outline.ofMember m) o o') :
    Rises o o' ((definitionsOf owner qualifier m).map (·.method.span.stop)) := by
  cases m with
  | field f => exact ⟨.nil, by simp [definitionsOf], by simp [definitionsOf]⟩
  | method m =>
    rw [Outline.ofMember, Outline.ofMethod] at h
    have hsolid : (Outline.framed m.span (Outline.ofModifiers m.modifiers
        ++ (m.returnType?.toList.flatMap Outline.ofType ++ Outline.ofName m.name
          ++ Outline.ofParameterList m.parameters ++ Outline.ofClause "throws" m.thrown
          ++ Outline.ofMethodBody m.body?))).solid = true := by
      simp [Outline.framed, Outline.ofParameterList, Outline.solid]
    have hlt := h.skipSpace_lt hsolid
    have hle := Source.le_skipSpace (s := s) false o
    have hstop := h.stop_eq
    rw [definitionsOf]
    split
    · exact ⟨List.pairwise_singleton .., by simp; omega, by simp; omega⟩
    · exact ⟨.nil, by simp, by simp⟩
  | type k body =>
    rw [Outline.ofMember] at h
    obtain ⟨-, hstart, hreads, -⟩ := Outline.reads_framed.1 h
    obtain ⟨y, hreads, hbrace⟩ := Outline.reads_append.1 hreads
    obtain ⟨x, hhead, hbody⟩ := Outline.reads_append.1 hreads
    have hle := Source.le_skipSpace (s := s) false o
    have hle' := hhead.le
    rw [definitionsOf]
    exact (definitionsIn_rise k _ body hbody).mono (by omega) hbrace.le

theorem definitionsIn_rise {s : Source} (owner : TypeHead) (qualifier : String) (ms : List Member)
    {o o' : Nat} (h : Reads s (Outline.ofMembers ms) o o') :
    Rises o o' ((definitionsIn owner qualifier ms).map (·.method.span.stop)) := by
  cases ms with
  | nil => exact ⟨.nil, by simp [definitionsIn], by simp [definitionsIn]⟩
  | cons m ms =>
    rw [Outline.ofMembers] at h
    obtain ⟨x, hm, hms⟩ := Outline.reads_append.1 h
    rw [definitionsIn, List.map_append]
    exact (definitionsOf_rise owner qualifier m hm).append
      (definitionsIn_rise owner qualifier ms hms) hm.le hms.le

end

variable {j : Job} {u : CompilationUnit}

theorem definitions_rise (h : Faithful j.source u) (hd : d ∈ u.types) :
    ((definitions d).map (·.method.span.stop)).Pairwise (· < ·) := by
  obtain ⟨o, o', hr⟩ := h.found (decl_mem_descendants hd)
  rw [Outline.ofNode, Outline.ofDecl, Outline.ofMember] at hr
  obtain ⟨-, -, hreads, -⟩ := Outline.reads_framed.1 hr
  obtain ⟨y, hreads, -⟩ := Outline.reads_append.1 hreads
  obtain ⟨x, -, hbody⟩ := Outline.reads_append.1 hreads
  exact (definitionsIn_rise d.head d.head.name.text d.body hbody).pairwise

/-! ## The texts of a method -/

/-- What stands in place of a list of modifiers: the comments between them, and the words with what
is behind the list. -/
def modifierText (s : Source) (ms : List Modifier) (words : List String) : String :=
  let text := " ".intercalate words
  match ms.getLast? with
  | none => if text = "" then "" else text ++ " "
  | some last =>
    String.ofList (ms.dropLast.flatMap fun m => s.gapComments m.span.stop)
      ++ if text = "" then String.ofList (s.gapComments last.span.stop)
        else text ++ String.ofList (s.delimiter last.span.stop)

def modifiersEnd (s : Source) (ms : List Modifier) (o : Nat) : Nat :=
  match ms.getLast? with
  | none => o
  | some last => s.skipSpace false last.span.stop

namespace Job

theorem emits_replaceModifiers (hx : j.profile.expandTabs = false) {ms : List Modifier}
    (hms : ∀ m ∈ ms, j.source.Boundary m.span.stop) (words : List String) (o : Nat) :
    j.Emits (Script.replaceModifiers ms words) o (modifierText j.source ms words)
      (modifiersEnd j.source ms o) := by
  unfold Script.replaceModifiers modifierText modifiersEnd
  dsimp only
  cases hlast : ms.getLast? with
  | none =>
    dsimp only
    split
    · exact .nil o
    · exact emits_write o _
  | some last =>
    have hgaps : ∀ (ms : List Modifier) (o : Nat), ∃ o',
        j.Emits (ms.flatMap fun m => [.moveTo m.span.stop, .copyComments]) o
          (String.ofList (ms.flatMap fun m => j.source.gapComments m.span.stop)) o' := by
      intro ms
      induction ms with
      | nil => exact fun o => ⟨o, .nil o⟩
      | cons m ms ih =>
        intro o
        have hm := (emits_moveTo (j := j) o m.span.stop).append (emits_copyComments hx m.span.stop)
        obtain ⟨o', hms⟩ := ih (if j.source.gapComments m.span.stop = [] then m.span.stop
          else j.source.skipSpace false m.span.stop)
        exact ⟨o', by simpa using hm.append hms⟩
    have hboundary := hms last (List.mem_of_getLast? hlast)
    obtain ⟨cs, hcs⟩ := Source.exists_slice hboundary
      (Source.inGap_skipSpace false hboundary).boundary (Source.le_skipSpace false _)
    obtain ⟨o', hgaps⟩ := hgaps ms.dropLast o
    have hjump := hgaps.append (emits_moveTo (j := j) o' last.span.stop)
    dsimp only
    split
    · simpa using hjump.append (emits_copyCommentsOrSkip hx last.span.stop)
    · simpa using hjump.append ((emits_write (j := j) last.span.stop _).append
        (emits_copyDelimiter hx hcs))

theorem emits_ofName {n : Java.SimpleName} {q : Pen} (h : j.run (Script.ofName n) p = .ok q) :
    j.Emits (Script.ofName n) p.position n.text (n.span.stop) := by
  obtain ⟨mid, hstart, hbody, rfl, hstop⟩ := framed_ok h
  rw [run_singleton] at hbody
  obtain ⟨⟨cs, hcs⟩, rfl⟩ := swap_ok hbody
  have hword := emits_swap (b := n.text) hcs
  have hend : p.position + byteLength n.text.toList = n.span.stop := hstop rfl
  simp only [Pen.note_position, hend] at hword
  have henter := emits_enter (j := j) n.span
  rw [← hstart] at henter
  simpa [Script.ofName, Script.framed, Stroke.keep] using
    (henter.append hword).append (emits_leave n.span)

/-- Nothing is written of a `throws` clause. -/
theorem emits_dropThrows {q : Pen} (h : j.run (Script.dropThrows m) p = .ok q) :
    j.Emits (Script.dropThrows m) p.position "" q.position := by
  unfold Script.dropThrows at h ⊢
  split at h
  · rename_i t _
    obtain ⟨_, hskip, h⟩ := run_cons_eq_ok.1 h
    obtain rfl := Except.ok.inj hskip
    obtain ⟨_, hword, hmove⟩ := run_cons_eq_ok.1 h
    obtain ⟨⟨cs, hcs⟩, rfl⟩ := swap_ok hword
    rw [run_singleton] at hmove
    obtain rfl := Except.ok.inj hmove
    exact (emits_skipSpace p.position).append ((emits_swap hcs).append (emits_moveTo _ t.span.stop))
  · cases h
    exact .nil _

end Job

def Output.Definition.headerSetting (p : Target.Profile) (x : Definition) : Setting :=
  { Setting.ofProfile p with enclosing? := some x.owner }

def Output.Definition.sourceSetting (p : Target.Profile) (x : Definition) : Setting :=
  { Setting.ofProfile p with part := .source, qualifier := x.qualifier, enclosing? := some x.owner }

/-- The texts of a method in the two files: what is written of its return type and of its parameters
is the same, and one has a semicolon where the other has the body. -/
structure MethodTexts (j : Job) (x : Definition) (returned parameters body : String) : Prop where
  ofReturn : ∃ o o', j.Emits (Script.ofReturnType (x.headerSetting j.profile) x.method) o returned o'
  ofParameters : ∃ o o',
    j.Emits (Script.ofParameterList (x.headerSetting j.profile) x.method) o parameters o'
  ofBody : ∃ o o', j.Emits (Script.ofMethodBody (x.sourceSetting j.profile) x.method) o body o'
  header : j.Emits (Script.ofMethod (x.headerSetting j.profile) x.method) x.method.span.start
    (modifierText j.source x.method.modifiers
        (Script.methodWords (x.headerSetting j.profile) x.method)
      ++ returned ++ x.method.name.text ++ parameters ++ ";") x.method.span.stop
  source : j.Emits (Script.ofMethod (x.sourceSetting j.profile) x.method) x.method.span.start
    (modifierText j.source x.method.modifiers [] ++ returned ++ (x.qualifier ++ "::")
      ++ x.method.name.text ++ parameters ++ body) x.method.span.stop

structure MethodParts (j : Job) (s : Setting) (m : Method) (returned parameters body : String)
    (a b c : Nat) : Prop where
  ofReturn : j.Emits (Script.ofReturnType s m) (modifiersEnd j.source m.modifiers m.span.start)
    returned a
  ofName : j.Emits (Script.ofName m.name) a m.name.text m.name.span.stop
  ofParameters : j.Emits (Script.ofParameterList s m) m.name.span.stop parameters b
  throws : j.Emits (Script.dropThrows m) b "" c
  ofBody : j.Emits (Script.ofMethodBody s m) c body m.span.stop

/-- One run of a method tells its parts. -/
theorem exists_methodParts (hx : j.profile.expandTabs = false)
    (hms : ∀ k ∈ m.modifiers, j.source.Boundary k.span.stop) {q : Pen} (hd : p.dedent = 0)
    (h : j.run (Script.ofMethod s m) p = .ok q) :
    ∃ returned parameters body a b c, MethodParts j s m returned parameters body a b c := by
  obtain ⟨q₇, hstart, hrun, rfl, hstop⟩ := Job.framed_ok h
  obtain ⟨q₆, hrun, hbody⟩ := Job.run_append_eq_ok.1 hrun
  obtain ⟨q₅, hrun, hthrows⟩ := Job.run_append_eq_ok.1 hrun
  obtain ⟨q₄, hrun, hparameters⟩ := Job.run_append_eq_ok.1 hrun
  obtain ⟨q₃, hrun, hname⟩ := Job.run_append_eq_ok.1 hrun
  obtain ⟨q₂, hrun, hqualifier⟩ := Job.run_append_eq_ok.1 hrun
  obtain ⟨q₁, hmodifiers, hreturn⟩ := Job.run_append_eq_ok.1 hrun
  let p₀ : Pen := { p.note with trailing := false }
  have hmods := Job.emits_replaceModifiers hx hms (Script.methodWords s m) m.span.start
  obtain ⟨hp₁, h₁⟩ := hmods.fresh (p := p₀) hstart ⟨hd, rfl⟩ hmodifiers
  obtain ⟨returned, hreturned⟩ := Job.emits_of_run hx (Script.local_ofReturnType s m) h₁ hreturn
  obtain ⟨-, h₂⟩ := hreturned.fresh rfl h₁ hreturn
  have hqualified : ∃ t, j.Emits (if s.defining then [.write (s.qualifier ++ "::")] else [])
      q₂.position t q₂.position := by
    split
    · exact ⟨_, Job.emits_write _ _⟩
    · exact ⟨_, .nil _⟩
  obtain ⟨t, hqualified⟩ := hqualified
  obtain ⟨hp₃, h₃⟩ := hqualified.fresh rfl h₂ hqualifier
  have hnamed := Job.emits_ofName hname
  obtain ⟨hp₄, h₄⟩ := hnamed.fresh rfl h₃ hname
  obtain ⟨parameters, hlisted⟩ :=
    Job.emits_of_run hx (Script.local_ofParameterList s m) h₄ hparameters
  obtain ⟨-, h₅⟩ := hlisted.fresh rfl h₄ hparameters
  have hdropped := Job.emits_dropThrows hthrows
  obtain ⟨-, h₆⟩ := hdropped.fresh rfl h₅ hthrows
  obtain ⟨body, hended⟩ := Job.emits_of_run hx (Script.local_ofMethodBody s m) h₆ hbody
  obtain ⟨-, h₇⟩ := hended.fresh rfl h₆ hbody
  refine ⟨returned, parameters, body, q₂.position, q₅.position, q₆.position, ?_, ?_, ?_, hdropped, ?_⟩
  · rw [← hp₁]
    exact hreturned
  · rw [← hp₃]
    exact hnamed
  · rw [← hp₄]
    exact hlisted
  · rw [← hstop h₇.2]
    exact hended

theorem MethodParts.emits (hx : j.profile.expandTabs = false)
    (hms : ∀ k ∈ m.modifiers, j.source.Boundary k.span.stop) {returned parameters body : String}
    {a b c : Nat} (h : MethodParts j s m returned parameters body a b c) :
    j.Emits (Script.ofMethod s m) m.span.start
      (modifierText j.source m.modifiers (Script.methodWords s m) ++ returned
        ++ (if s.defining then s.qualifier ++ "::" else "") ++ m.name.text ++ parameters ++ body)
      m.span.stop := by
  have hmods := Job.emits_replaceModifiers hx hms (Script.methodWords s m) m.span.start
  have hqualified : j.Emits (if s.defining then [.write (s.qualifier ++ "::")] else []) a
      (if s.defining then s.qualifier ++ "::" else "") a := by
    split
    · exact Job.emits_write a _
    · exact .nil a
  have hbody := (((((hmods.append h.ofReturn).append hqualified).append h.ofName).append
    h.ofParameters).append h.throws).append h.ofBody
  simpa [Script.ofMethod, Script.framed, String.append_assoc] using
    ((Job.emits_enter m.span).append hbody).append (Job.emits_leave m.span)

/-- The two texts of a method have their parts in common. -/
theorem methodTexts_of_parts (hcpp : j.profile.isCpp = true) (hx : j.profile.expandTabs = false)
    {k : Java.Block} (hk : x.method.body? = some k)
    (hms : ∀ m ∈ x.method.modifiers, j.source.Boundary m.span.stop)
    {returned parameters semicolon : String} {a b c : Nat}
    (hheader : MethodParts j (x.headerSetting j.profile) x.method returned parameters semicolon a b c)
    {returned' parameters' body : String} {a' b' c' : Nat}
    (hsource : MethodParts j (x.sourceSetting j.profile) x.method returned' parameters' body a' b' c') :
    MethodTexts j x returned parameters body := by
  have hdefining : (x.headerSetting j.profile).defining = false := by
    simp [Output.Definition.headerSetting, Setting.defining, Setting.ofProfile]
  have hdefining' : (x.sourceSetting j.profile).defining = true := by
    simp [Output.Definition.sourceSetting, Setting.defining, Setting.ofProfile, Setting.isCpp, hcpp]
  -- Return type and parameters have the same scripts in both settings.
  obtain ⟨rfl, rfl⟩ := hheader.ofReturn.unique hsource.ofReturn
  obtain ⟨rfl, rfl⟩ := hheader.ofParameters.unique hsource.ofParameters
  obtain ⟨-, rfl⟩ := hheader.throws.unique hsource.throws
  have hsemicolon : semicolon = ";" := by
    have hscript : Script.ofMethodBody (x.headerSetting j.profile) x.method
        = [.write ";", .moveTo k.span.stop] := by
      have hc : (x.headerSetting j.profile).isCpp = true := hcpp
      simp [Script.ofMethodBody, hk, hdefining, hc]
    have hbody := hheader.ofBody
    rw [hscript] at hbody
    have hjump := (Job.emits_write (j := j) c ";").append (Job.emits_moveTo c k.span.stop)
    exact (hbody.unique hjump).1.trans (by simp)
  refine ⟨⟨_, _, hheader.ofReturn⟩, ⟨_, _, hheader.ofParameters⟩, ⟨_, _, hsource.ofBody⟩, ?_, ?_⟩
  · have hemits := hheader.emits hx hms
    simpa [hdefining, hsemicolon] using hemits
  · have hemits := hsource.emits hx hms
    have hwords : Script.methodWords (x.sourceSetting j.profile) x.method = [] := by
      simp [Script.methodWords, hdefining']
    rwa [hwords, if_pos hdefining'] at hemits

/-! ## Both files -/

/-- Where the files are written nothing in the tree is rejected. -/
theorem faults_of_files (h : Faithful j.source u) {fs : List Output.File}
    (hfiles : j.files u = .ok fs) (hd : d ∈ u.types) {ns : List Node}
    (hns : ∀ n ∈ ns, n ∈ (Node.unit u).descendants) : faults j.profile.isCpp ns = [] := by
  have hblames : Blames (u.types.flatMap (declFaults j.profile.isCpp u)) (j.files u) :=
    filesFrom_blames h [] u.types rfl
  rw [hfiles] at hblames
  have hnone : u.types.flatMap (declFaults j.profile.isCpp u) = [] := hblames
  rw [List.eq_nil_iff_forall_not_mem]
  intro n hn
  obtain ⟨hn, hrejected⟩ := mem_faults.1 hn
  have := (mem_filesFaults_iff j.profile.isCpp (List.ne_nil_of_mem hd) n).2 ⟨hns n hn, hrejected⟩
  rw [hnone] at this
  cases this

theorem mem_underMethod_of_written {bodies : Bool} {n : Node} (hn : n ∈ writtenMethod bodies m) :
    n ∈ Node.underMethod m := by
  rw [← writtenMethod_true]
  simp only [writtenMethod, List.mem_append] at hn ⊢
  refine hn.imp_right fun hn => ?_
  split at hn
  · simpa using hn
  · cases hn

/-- Where the files are written, so is every method with a body by itself. -/
theorem method_runs (h : Faithful j.source u) {fs : List Output.File} (hfiles : j.files u = .ok fs)
    (hd : d ∈ u.types) (hx : x ∈ definitions d) (hs : s.profile = j.profile)
    (hp : p.position = x.method.span.start) :
    ∃ q, j.run (Script.ofMethod s x.method) p = .ok q := by
  have hm := method_mem_descendants hd hx
  obtain ⟨hb, hfix⟩ := h.start hm
  obtain ⟨o', hr⟩ := h.reads_node hm (by simp) (.refl hb)
  have hstopped := (Tracks.ofMethod s x.method).stoppedBy hr (hp.trans hfix.symm)
  have hnone : faults s.isCpp (writtenMethod s.keepsBodies x.method) = [] := by
    rw [Setting.isCpp, hs]
    refine faults_of_files h hfiles hd fun n hn => ?_
    refine mem_descendants_of_mem_decl hd ((mem_decl_iff d n).2 (.inr ⟨x, hx, ?_⟩))
    exact mem_underMethod_of_written hn
  rw [hnone] at hstopped
  exact hstopped.exists_ok

theorem ofMembers_infix_type (s : Setting) (k : TypeHead) (body : List Member) :
    Script.ofMembers { s with enclosing? := some k } k .priv body
      <:+: Script.ofMember s (.type k body) :=
  ⟨.enter k.span :: Script.ofHead s k, Script.ofEnd s k ++ [Stroke.leave k.span], by
    simp [Script.ofMember, Script.framed]⟩

mutual

/-- The declaration of a method stands in the declaration of every type around it. -/
theorem ofMethod_infix_member (s : Setting) {owner : TypeHead} (qualifier : String)
    (hs : s.enclosing? = some owner) (m : Member) : ∀ x ∈ definitionsOf owner qualifier m,
      Script.ofMethod { s with enclosing? := some x.owner } x.method <:+: Script.ofMember s m := by
  cases m with
  | field f => simp [definitionsOf]
  | method m =>
    rw [definitionsOf, Script.ofMember]
    split
    · rintro x (_ | ⟨_, ⟨⟩⟩)
      exact hs ▸ List.infix_refl _
    · simp
  | type k body =>
    rw [definitionsOf]
    intro x hx
    exact (ofMethod_infix_members { s with enclosing? := some k } k
      (qualifier ++ "::" ++ k.name.text) rfl .priv body x hx).trans (ofMembers_infix_type s k body)

theorem ofMethod_infix_members (s : Setting) (owner : TypeHead) (qualifier : String)
    (hs : s.enclosing? = some owner) (current : Java.Access) (ms : List Member) :
    ∀ x ∈ definitionsIn owner qualifier ms,
      Script.ofMethod { s with enclosing? := some x.owner } x.method
        <:+: Script.ofMembers s owner current ms := by
  cases ms with
  | nil => simp [definitionsIn]
  | cons m ms =>
    intro x hx
    rw [definitionsIn, List.mem_append] at hx
    rw [Script.ofMembers]
    rcases hx with hx | hx
    · refine (ofMethod_infix_member s qualifier hs m x hx).trans ?_
      exact ⟨Script.labelFor s owner current m ++ [Stroke.copySpace],
        Script.ofMembers s owner (Script.memberAccess owner m) ms, by simp⟩
    · exact (ofMethod_infix_members s owner qualifier hs (Script.memberAccess owner m) ms x
        hx).trans (List.suffix_append _ _).isInfix

end

theorem ofMethod_infix_declarationScript (p : Target.Profile) (u : CompilationUnit) (index : Nat)
    (hx : x ∈ definitions d) :
    Script.ofMethod (x.headerSetting p) x.method <:+: Output.declarationScript p u index d := by
  let s := Setting.ofProfile p
  have hmembers := ofMethod_infix_members { s with enclosing? := some d.head } d.head
    d.head.name.text rfl .priv d.body x hx
  have htype := ofMembers_infix_type s d.head d.body
  refine (hmembers.trans htype).trans ⟨Script.ofPrologue s u ++ Output.leadScript u index d
    ++ [Stroke.copySpace], .copyTrail :: Script.ofEpilogue s u, ?_⟩
  simp [Output.declarationScript, Script.ofDecl, s]

theorem ofMethod_infix_definitionsScript (p : Target.Profile) (u : CompilationUnit)
    (hx : x ∈ definitions d) :
    Script.ofMethod (x.sourceSetting p) x.method <:+: Output.definitionsScript p u d := by
  have hdefinition : Output.definitionScript p x
      <:+: (definitions d).flatMap (Output.definitionScript p) := by
    obtain ⟨l, l', hl⟩ := List.append_of_mem hx
    rw [hl, List.flatMap_append, List.flatMap_cons, ← List.append_assoc]
    exact ⟨_, _, rfl⟩
  have hmethod : Script.ofMethod (x.sourceSetting p) x.method <:+: Output.definitionScript p x :=
    ⟨_, _, rfl⟩
  exact (hmethod.trans hdefinition).trans ⟨_, _, rfl⟩

theorem body_of_mem_definitions (hx : x ∈ definitions d) :
    ∃ b, x.method.body? = some b := by
  have hbodied : x.method ∈ (definitions d).map (·.method) := List.mem_map_of_mem hx
  rw [definitions_methods, List.mem_filterMap] at hbodied
  obtain ⟨n, -, hn⟩ := hbodied
  cases n with
  | method m =>
    rw [Node.bodied?] at hn
    split at hn
    · rename_i hm
      obtain rfl := Option.some.inj hn
      exact Option.isSome_iff_exists.1 hm
    · cases hn
  | _ => cases hn

/-- A method with a body ends with it. -/
theorem bodyEnd_of_faithful (h : Faithful j.source u)
    (hm : Node.method m ∈ (Node.unit u).descendants) {b : Java.Block} (hb : m.body? = some b) :
    m.bodyEnd? = some m.span.stop := by
  obtain ⟨o, o', hr⟩ := h.found hm
  rw [Outline.ofNode, Outline.ofMethod, hb] at hr
  obtain ⟨-, -, hreads, hstop⟩ := Outline.reads_framed.1 hr
  obtain ⟨x, -, hreads⟩ := Outline.reads_append.1 hreads
  obtain ⟨y, -, hbody⟩ := Outline.reads_append.1 hreads
  rw [Outline.ofMethodBody, Outline.ofBlock, Outline.ofStmt] at hbody
  rw [Java.Method.bodyEnd?, hb, hstop, Option.map_some, hbody.stop_eq]

theorem filterMap_bodyEnd (h : Faithful j.source u) (hd : d ∈ u.types) :
    (definitions d).filterMap (·.method.bodyEnd?) = (definitions d).map (·.method.span.stop) := by
  refine List.filterMap_eq_map_iff_forall_eq_some.2 fun x hx => ?_
  obtain ⟨b, hb⟩ := body_of_mem_definitions hx
  exact bodyEnd_of_faithful h (method_mem_descendants hd hx) hb

theorem boundary_of_modifier (h : Faithful j.source u) {x : Method}
    (hx : Node.method x ∈ (Node.unit u).descendants) {m : Modifier} (hm : m ∈ x.modifiers) :
    j.source.Boundary m.span.stop := by
  have hfound : Outline.Found j.source (Outline.ofNode (.modifier m)) :=
    Outline.found_child (h.found hx) (by simp [Node.children, hm])
  obtain ⟨o, o', hr⟩ := hfound
  obtain ⟨k, hk⟩ := Outline.ofNode_framed (n := .modifier m) (by simp)
  rw [hk] at hr
  rw [show m.span.stop = o' from hr.stop_eq]
  exact hr.boundary

/-- The header of a type leaves out the bodies of just those methods that the source file defines,
in the order of the source and each once. These are the methods with a body in the type and in the
types inside it, each with the type that declares it and the names from the outermost type on. The
declaration of a method and its definition have what is written of the return type and of the
parameters in common. -/
theorem header_source_agree (hu : Faithful j.source u) (hcpp : j.profile.isCpp = true)
    {fs : List Output.File} (hfiles : j.files u = .ok fs) {index : Nat} {d : TypeDecl}
    (hd : u.types[index]? = some d) :
    (Output.declarationScript j.profile u index d).omitted
      = (definitions d).map (·.method.span.stop) ∧
    ((definitions d).map (·.method.span.stop)).Pairwise (· < ·) ∧
    (definitions d).map (·.method) = (Node.decl d).descendants.filterMap Node.bodied? ∧
    ∀ x ∈ definitions d,
      (∃ path body, Chain d path ⟨x.owner, body⟩ ∧ .method x.method ∈ body ∧
        x.qualifier = chainName path) ∧
      Script.ofMethod (x.headerSetting j.profile) x.method
        <:+: Output.declarationScript j.profile u index d ∧
      Script.ofMethod (x.sourceSetting j.profile) x.method
        <:+: Output.definitionsScript j.profile u d ∧
      (j.profile.expandTabs = false → ∃ returned parameters body,
        MethodTexts j x returned parameters body) := by
  have hmem := List.mem_of_getElem? hd
  refine ⟨?_, definitions_rise hu hmem, definitions_methods d, fun x hx => ⟨definitions_chain d x hx,
    ofMethod_infix_declarationScript _ u index hx, ofMethod_infix_definitionsScript _ u hx,
    fun htabs => ?_⟩⟩
  · rw [omitted_declarationScript hcpp]
    exact filterMap_bodyEnd hu hmem
  · have hms : ∀ m ∈ x.method.modifiers, j.source.Boundary m.span.stop := fun m hm =>
      boundary_of_modifier hu (method_mem_descendants hmem hx) hm
    let p : Pen := j.pen.moveTo x.method.span.start
    obtain ⟨q, hheader⟩ := method_runs hu hfiles hmem hx (s := x.headerSetting j.profile) rfl
      (p := p) rfl
    obtain ⟨q', hsource⟩ := method_runs hu hfiles hmem hx (s := x.sourceSetting j.profile) rfl
      (p := p) rfl
    obtain ⟨returned, parameters, _, _, _, _, hdeclared⟩ := exists_methodParts htabs hms rfl hheader
    obtain ⟨_, _, body, _, _, _, hdefined⟩ := exists_methodParts htabs hms rfl hsource
    obtain ⟨b, hb⟩ := body_of_mem_definitions hx
    exact ⟨returned, parameters, body, methodTexts_of_parts hcpp htabs hb hms hdeclared hdefined⟩

def nestedSource : Source :=
  Source.ofString "A.java"
    "class A\x7bclass B\x7bstatic /*s*/ final int f(int n)throws E\x7breturn n;\x7d\x7d\x7d"

def nestedMethod : Method where
  span := ⟨16, 66⟩
  modifiers := [.keyword ⟨16, 22⟩ .static, .keyword ⟨29, 34⟩ .final]
  returnType? := some (.primitive ⟨35, 38⟩ .int)
  name := ⟨⟨39, 40⟩, "f"⟩
  parameters := [⟨⟨41, 46⟩, [], .primitive ⟨41, 44⟩ .int, ⟨⟨45, 46⟩, "n"⟩, 0⟩]
  thrown := [.simple ⟨⟨54, 55⟩, ⟨⟨54, 55⟩, [⟨⟨54, 55⟩, "E"⟩]⟩⟩]
  body? := some ⟨⟨55, 66⟩, [.ret ⟨56, 65⟩ (some (.name ⟨⟨63, 64⟩, "n"⟩))]⟩

def nestedHead : TypeHead where
  span := ⟨8, 67⟩
  modifiers := []
  isInterface := false
  name := ⟨⟨14, 15⟩, "B"⟩
  typeParameters := []
  extended := []
  implemented := []
  bodySpan := ⟨15, 67⟩

def nestedType : TypeDecl where
  head := ⟨⟨0, 68⟩, [], false, ⟨⟨6, 7⟩, "A"⟩, [], [], [], ⟨7, 68⟩⟩
  body := [.type nestedHead [.method nestedMethod]]

def nestedUnit : CompilationUnit := ⟨⟨0, 68⟩, none, [], [nestedType]⟩

theorem header_source_agree_nested :
    Faithful nestedSource nestedUnit ∧
    (Output.declarationScript .cpp nestedUnit 0 nestedType).omitted = [66] ∧
    (definitions nestedType).map (·.method) = [nestedMethod] ∧
    ∃ returned parameters body,
      MethodTexts ⟨nestedSource, .cpp⟩ ⟨nestedHead, "A::B", nestedMethod⟩ returned parameters body := by
  have hu : Faithful nestedSource nestedUnit := by decide +kernel
  have hfiles : ((Job.mk nestedSource .cpp).files nestedUnit).toOption.isSome = true := by
    decide +kernel
  cases h : (Job.mk nestedSource .cpp).files nestedUnit with
  | error e => rw [h] at hfiles; cases hfiles
  | ok fs =>
    have hd : nestedUnit.types[0]? = some nestedType := rfl
    obtain ⟨homitted, -, -, hmethods⟩ := header_source_agree (j := ⟨nestedSource, .cpp⟩) hu rfl h hd
    exact ⟨hu, homitted, rfl, (hmethods _ List.mem_cons_self).2.2.2 rfl⟩

end Transcribe
