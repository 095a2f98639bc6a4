/-
  Transcribe.Proofs.Fault — the constructs a target rejects.

  Labels, static imports and dimensions behind a name have no counterpart in either target. C++
  also has no generic types, no unsigned shift, no `instanceof`, no arrays of more than one
  dimension and no array initializer by itself. `Node.isRejected` says this of one node by its kind
  alone, without a script; `faults` picks such nodes out of a list, in order, and what stops a
  script is compared with them.
-/

import Transcribe.Java.Node
import Transcribe.Script.Stmt

namespace Transcribe

open Java (SimpleName Modifier Ty Node)

def Java.Node.isRejected (cpp : Bool) : Node → Bool
  | .importing i => i.isStatic
  | .stmt (.leave _ label?) => label?.isSome
  | .stmt (.next _ label?) => label?.isSome
  | .parameter p => decide (0 < p.extraDims)
  | .fragment f => decide (0 < f.extraDims) || cpp && f.init?.any Script.isArrayInit
  | .decl d => cpp && !d.head.typeParameters.isEmpty
  | .expr (.binary _ _ op _) => cpp && op == .unsignedRightShift
  | .expr (.assign _ _ op _) => cpp && op == .unsignedRightShift
  | .expr (.instanceOf _ _ _) => cpp
  | .expr (.newSized _ _ lengths extraDims) => cpp && decide (1 < lengths.length + extraDims)
  | .expr (.newListed _ _ extraDims _ _) => cpp && decide (1 < extraDims)
  | _ => false

def faults (cpp : Bool) (ns : List Node) : List Node := ns.filter (·.isRejected cpp)

variable {cpp : Bool}

theorem mem_faults {n : Node} {ns : List Node} :
    n ∈ faults cpp ns ↔ n ∈ ns ∧ n.isRejected cpp = true :=
  List.mem_filter

@[simp] theorem faults_nil : faults cpp [] = [] := rfl

@[simp] theorem faults_append (a b : List Node) : faults cpp (a ++ b) = faults cpp a ++ faults cpp b :=
  List.filter_append ..

theorem faults_cons (n : Node) (ns : List Node) :
    faults cpp (n :: ns) = (if n.isRejected cpp then [n] else []) ++ faults cpp ns := by
  unfold faults
  rw [List.filter_cons]
  split <;> rfl

theorem faults_flatMap {α : Type} (f : α → List Node) (as : List α) :
    faults cpp (as.flatMap f) = as.flatMap fun a => faults cpp (f a) :=
  List.filter_flatMap ..

@[simp] theorem faults_cons_name (n : SimpleName) (ns : List Node) :
    faults cpp (Node.ofName n :: ns) = faults cpp ns := rfl

@[simp] theorem faults_names (as : List SimpleName) : faults cpp (as.map Node.ofName) = [] := by
  induction as with
  | nil => rfl
  | cons a as ih => exact ih

@[simp] theorem faults_modifiers (ms : List Modifier) :
    faults cpp (Node.underModifiers ms) = [] := by
  induction ms with
  | nil => rfl
  | cons m ms ih => exact ih

mutual

/-- Every type can be expressed. -/
theorem faults_underType (t : Ty) : faults cpp (Node.underType t) = [] := by
  cases t with
  | primitive span k => rfl
  | simple t => rfl
  | array span element dims =>
    rw [Node.underType, faults_cons, faults_underType element]; rfl
  | generic span base arguments =>
    rw [Node.underType, faults_cons, faults_cons, faults_underTypes arguments]; rfl

theorem faults_underTypes (ts : List Ty) : faults cpp (Node.underTypes ts) = [] := by
  cases ts with
  | nil => rfl
  | cons t ts =>
    rw [Node.underTypes, faults_append, faults_underType t, faults_underTypes ts]; rfl

end

attribute [simp] faults_underType faults_underTypes

@[simp] theorem faults_underHead (h : Java.TypeHead) : faults cpp (Node.underHead h) = [] := by
  have hp : faults cpp (h.typeParameters.flatMap fun p => [.typeParameter p, Node.ofName p.name])
      = [] := by
    rw [faults_flatMap, List.flatMap_eq_nil_iff]
    intro p _
    rfl
  simp [Node.underHead, hp]

end Transcribe
