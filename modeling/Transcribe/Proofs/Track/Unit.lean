/-
  Transcribe.Proofs.Track.Unit — packages, imports and whole files keep to their outlines.

  In C++ the name of a package is passed over token by token, which the outline of a dotted name
  allows since a name has at least one segment. An import is left by a jump to its end.
  - `ofPrologue`, `ofEpilogue`: what stands in front of the types and behind them.
  - `ofNode`: any node but a file.
-/

import Transcribe.Proofs.Track.Decl
import Transcribe.Script.Node

namespace Transcribe.Tracks

open Java (Modifier Package Import TypeDecl CompilationUnit Node)
open Outline (Reads)

variable {j : Job} {stray : Bool} {a : Stance}

theorem moving_segments {ns : List Java.SimpleName} (h : ns ≠ []) :
    Outline.moving ([.token "."].intercalate (ns.map fun s => [.token s.text])) = true := by
  match ns, h with
  | [n], _ => simp
  | n :: n' :: ns, _ => simp [List.intercalate]

theorem ofModifier (isCpp : Bool) (d : Modifier) :
    Tracks j stray .before .behind (Outline.ofModifier d) false [] (Script.ofModifier isCpp d) := by
  cases d with
  | keyword span k => exact frame false (.modifier (.keyword span k)) [] rfl fun _ => swap _ _
  | tag span name =>
    refine frameTo false (.modifier (.tag span name)) [] rfl fun _ => ?_
    refine (drop "@").cons (of_within (demand fun hne => jump ?_ fun o o' hr => hr.last_eq))
    have hne : name.segments ≠ [] := by simpa using hne
    simp [moving_segments hne]

theorem ofPackage (s : Setting) (p : Package) :
    Tracks j stray .before .behind (Outline.ofPackage p) false [] (Script.ofPackage s p) := by
  refine frame s.isCpp (.package p) [] rfl fun _ => ?_
  split
  · have hend : Tracks j stray .behind .behind [.token ";"] false [] [.skipSpace, .drop ";"] :=
      gap (drop ";")
    simpa [Node.isRejected] using
      ((drop "package").cons (of_within (skipSpace.cons (dropName p.name)))).append hend
  · simpa [Node.isRejected] using
      ((swap "package" "namespace").cons (of_within (copyDelimiter.cons (dropName p.name)))).append
        ((write (p.name.joined ".")).cons (token ";"))

theorem ofImport (s : Setting) (i : Import) :
    Tracks j stray .before .behind (Outline.ofImport i) false (faults s.isCpp [.importing i])
      (Script.ofImport s i) := by
  refine frameTo s.isCpp (.importing i) [] rfl fun _ => ?_
  rw [Node.isRejected]
  cases hstatic : i.isStatic with
  | true => exact reject _ (by simp)
  | false =>
    have hjump : Tracks j stray .behind .behind
        (Outline.ofPath i.name ++ (if i.onDemand then [Mark.token ".", .token "*"] else [])
          ++ [Mark.token ";"] ++ [Mark.last i.span]) false [] [.moveTo i.span.stop] :=
      of_within (jump (by simp) fun _ _ hr => hr.last_eq)
    simpa using (drop "import").cons (hjump.append (writes (Script.importLine s i).toList))

theorem newline : Tracks j stray a a [] false [] [.newline] :=
  still (fun _ => rfl) fun _ => ⟨_, rfl, rfl, rfl⟩

theorem closeLine (n : Nat) : Tracks j stray a a [] false [] [.closeLine n] := by
  refine still (fun _ => rfl) fun p => ⟨_, rfl, ?_⟩
  split
  · exact ⟨rfl, rfl⟩
  · induction n with
    | zero => exact ⟨rfl, rfl⟩
    | succ n ih => exact ih

theorem openNamespace (p : Package) :
    Tracks j stray a a [] false [] (Script.openNamespace p) :=
  (write _).cons newline

theorem ofPrologue (s : Setting) (u : CompilationUnit) :
    Tracks j stray .within .within
      (u.package?.toList.flatMap Outline.ofPackage ++ u.imports.flatMap Outline.ofImport) false
      (faults s.isCpp (u.imports.map .importing)) (Script.ofPrologue s u) := by
  have hpackage : ∀ p ∈ u.package?.toList, Tracks j stray .within .within (Outline.ofPackage p) false
      [] (.copySpace :: Script.ofPackage s p
        ++ if s.isCpp then [Stroke.skipLine, .skipBlankLines] else []) := fun p _ => by
    simpa using (ofPackage s p).space.to_within.append
      (optional s.isCpp (skipLine.cons skipBlankLines))
  have himport : ∀ i ∈ u.imports, Tracks j stray .within .within (Outline.ofImport i) false
      (faults s.isCpp [.importing i])
      (.copySpace :: Script.ofImport s i ++ if Script.isDropped s i then [Stroke.skipLine] else []) :=
    fun i _ => by
      simpa using (ofImport s i).space.to_within.append (optional (Script.isDropped s i) skipLine)
  have himports : faults s.isCpp (u.imports.map .importing)
      = u.imports.flatMap fun i => faults s.isCpp [.importing i] := by
    rw [← faults_flatMap, ← List.map_eq_flatMap]
  have hlines := ((flatMap hpackage).append (flatMap himport)).append
    (optional (Script.lineOpen s u) copyLine)
  rw [himports]
  refine of_eq (hlines.append (?_ : Tracks j stray .within .within [] false [] _)) (by simp)
    (by simp) (by simp)
  split
  · split
    · exact (closeLine 2).cons (openNamespace _)
    · exact optional _ copyBreak
  · exact optional _ copyBreak

theorem ofEpilogue (s : Setting) (u : CompilationUnit) :
    Tracks j stray a a [] false [] (Script.ofEpilogue s u) :=
  (closeLine 1).cons (optional (s.isCpp && u.package?.isSome) ((write "\x7d").cons newline))

/-- All of a file between its start and its end. -/
theorem ofUnitBody (s : Setting) (u : CompilationUnit) :
    Tracks j stray .within .within (Outline.ofUnit u) false
      (faults s.isCpp (u.imports.map .importing)
        ++ u.types.flatMap fun d => faults s.isCpp (writtenMember s.keepsBodies (.type d.head d.body)))
      (Script.ofPrologue s u ++ u.types.flatMap (fun d => .copySpace :: Script.ofDecl s d)
        ++ Script.ofEpilogue s u) := by
  have htypes : ∀ d ∈ u.types, Tracks j stray .within .within (Outline.ofDecl d) false
      (faults s.isCpp (writtenMember s.keepsBodies (.type d.head d.body)))
      (.copySpace :: Script.ofDecl s d) :=
    fun d _ => (ofMember s (.type d.head d.body)).space.to_within
  refine of_eq (((ofPrologue s u).append (flatMap htypes)).append (ofEpilogue s u)) ?_ rfl ?_
  · rw [List.append_nil, Outline.ofUnit]
  · rw [List.append_nil]

/-! ## Any node -/

/-- Blocks need a method around them, all other nodes can be written anywhere. -/
theorem ofNode (s : Setting) {n : Node} (hn : ∀ u, n ≠ .unit u)
    (hs : stray = false → ∀ t, n = .stmt t → s.inBody = true) :
    ∃ ns, Tracks j stray .before .behind (Outline.ofNode n) false ns (Script.ofNode s n) := by
  cases n with
  | unit u => exact absurd rfl (hn u)
  | package p => exact ⟨_, ofPackage s p⟩
  | importing i => exact ⟨_, ofImport s i⟩
  | decl d => exact ⟨_, ofMember s (.type d.head d.body)⟩
  | field f => exact ⟨_, ofField s f⟩
  | method m => exact ⟨_, ofMethod s m⟩
  | parameter p => exact ⟨_, ofParameter s p⟩
  | fragment f => exact ⟨_, ofFragment s f⟩
  | modifier d => exact ⟨_, ofModifier s.isCpp d⟩
  | type t => exact ⟨_, ofType s.profile t⟩
  | typeParameter p => exact ⟨_, ofTypeParameter p⟩
  | stmt t => exact ⟨_, ofStmt s (fun h => hs h t rfl) t⟩
  | expr e => exact ⟨_, ofExpr s e⟩
  | locals span vars => exact ⟨_, frame s.isCpp (.locals span vars) _ rfl fun _ => ofLocals s vars⟩

end Transcribe.Tracks
