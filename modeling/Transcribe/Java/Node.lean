/-
  Transcribe.Java.Node — any node of a syntax tree, its children and its descendants.

  Children come in the order of the source. `Node.descendants` lists a node and all below it,
  depth first.
  - `Node.descendants_eq`: a node's descendants are itself and those of its children in order.
-/

import Transcribe.Java.Tree

namespace Transcribe.Java

open Text (Span)

inductive Node where
  | unit (u : CompilationUnit)
  | package (p : Package)
  | importing (i : Import)
  | decl (d : TypeDecl)
  | field (f : Field)
  | method (m : Method)
  | parameter (p : Parameter)
  | fragment (f : Fragment)
  | modifier (m : Modifier)
  | type (t : Ty)
  | typeParameter (p : TypeParameter)
  | stmt (s : Stmt)
  | expr (e : Expr)
  | locals (span : Span) (vars : Variables)

namespace Node

def ofName (n : SimpleName) : Node := .expr (.name n)

def ofMember : Member → Node
  | .field f => .field f
  | .method m => .method m
  | .type h b => .decl ⟨h, b⟩

def ofBlock (b : Block) : Node := .stmt (.block b.span b.body)

def span : Node → Span
  | .unit u => u.span
  | .package p => p.span
  | .importing i => i.span
  | .decl d => d.head.span
  | .field f => f.span
  | .method m => m.span
  | .parameter p => p.span
  | .fragment f => f.span
  | .modifier m => m.span
  | .type t => t.span
  | .typeParameter p => p.span
  | .stmt s => s.span
  | .expr e => e.span
  | .locals s _ => s

/-! ## Children -/

def ofVariables (v : Variables) : List Node :=
  v.modifiers.map .modifier ++ .type v.type :: v.fragments.map .fragment

def ofForInit : ForInit → List Node
  | .exprs es => es.map .expr
  | .locals s v => [.locals s v]

def childrenOfType : Ty → List Node
  | .primitive _ _ => []
  | .simple _ => []
  | .array _ element _ => [.type element]
  | .generic _ base arguments => .type (.simple base) :: arguments.map .type

def childrenOfExpr : Expr → List Node
  | .literal _ _ _ => []
  | .name _ => []
  | .self _ => []
  | .field _ target name => [.expr target, ofName name]
  | .call _ name arguments => ofName name :: arguments.map .expr
  | .invoke _ target name arguments => .expr target :: ofName name :: arguments.map .expr
  | .create _ t arguments => .type t :: arguments.map .expr
  | .newSized _ element lengths _ => .type element :: lengths.map .expr
  | .newListed _ element _ listSpan items => [.type element, .expr (.arrayInit listSpan items)]
  | .arrayInit _ items => items.map .expr
  | .index _ array position => [.expr array, .expr position]
  | .assign _ left _ right => [.expr left, .expr right]
  | .binary _ left _ right => [.expr left, .expr right]
  | .instanceOf _ operand t => [.expr operand, .type t]
  | .prefixed _ _ operand => [.expr operand]
  | .postfixed _ operand _ => [.expr operand]
  | .conditional _ condition yes no => [.expr condition, .expr yes, .expr no]
  | .paren _ inner => [.expr inner]
  | .cast _ t operand => [.type t, .expr operand]

def childrenOfStmt : Stmt → List Node
  | .block _ body => body.map .stmt
  | .locals _ vars => ofVariables vars
  | .expr _ e => [.expr e]
  | .ifThen _ condition yes => [.expr condition, .stmt yes]
  | .ifElse _ condition yes no => [.expr condition, .stmt yes, .stmt no]
  | .whileLoop _ condition body => [.expr condition, .stmt body]
  | .doLoop _ body condition => [.stmt body, .expr condition]
  | .forLoop _ init condition? updates body =>
    ofForInit init ++ condition?.toList.map .expr ++ updates.map .expr ++ [.stmt body]
  | .forEach _ item items body => [.parameter item, .expr items, .stmt body]
  | .ret _ value? => value?.toList.map .expr
  | .leave _ label? => label?.toList.map ofName
  | .next _ label? => label?.toList.map ofName
  | .throwing _ e => [.expr e]
  | .empty _ => []

def childrenOfHead (h : TypeHead) : List Node :=
  h.modifiers.map .modifier ++ ofName h.name :: h.typeParameters.map .typeParameter
    ++ h.extended.map .type ++ h.implemented.map .type

def children : Node → List Node
  | .unit u => u.package?.toList.map .package ++ u.imports.map .importing ++ u.types.map .decl
  | .package _ => []
  | .importing _ => []
  | .decl d => childrenOfHead d.head ++ d.body.map ofMember
  | .field f => ofVariables f.vars
  | .method m =>
    m.modifiers.map .modifier ++ m.returnType?.toList.map .type ++ ofName m.name
      :: m.parameters.map .parameter ++ m.thrown.map .type ++ m.body?.toList.map ofBlock
  | .parameter p => p.modifiers.map .modifier ++ [.type p.type, ofName p.name]
  | .fragment f => ofName f.name :: f.init?.toList.map .expr
  | .modifier _ => []
  | .type t => childrenOfType t
  | .typeParameter p => [ofName p.name]
  | .stmt s => childrenOfStmt s
  | .expr e => childrenOfExpr e
  | .locals _ vars => ofVariables vars

/-! ## Descendants -/

mutual

def underType : Ty → List Node
  | .primitive s k => [.type (.primitive s k)]
  | .simple t => [.type (.simple t)]
  | .array s element n => Node.type (.array s element n) :: underType element
  | .generic s base arguments =>
    Node.type (.generic s base arguments) :: Node.type (.simple base) :: underTypes arguments

def underTypes : List Ty → List Node
  | [] => []
  | t :: ts => underType t ++ underTypes ts

end

mutual

def underExpr : Expr → List Node
  | .literal s k t => [.expr (.literal s k t)]
  | .name n => [ofName n]
  | .self s => [.expr (.self s)]
  | .field s target name => Node.expr (.field s target name) :: underExpr target ++ [ofName name]
  | .call s name arguments =>
    Node.expr (.call s name arguments) :: ofName name :: underExprs arguments
  | .invoke s target name arguments =>
    Node.expr (.invoke s target name arguments) :: underExpr target ++ ofName name
      :: underExprs arguments
  | .create s t arguments =>
    Node.expr (.create s t arguments) :: underType t ++ underExprs arguments
  | .newSized s element lengths n =>
    Node.expr (.newSized s element lengths n) :: underType element ++ underExprs lengths
  | .newListed s element n listSpan items =>
    Node.expr (.newListed s element n listSpan items) :: underType element
      ++ Node.expr (.arrayInit listSpan items) :: underExprs items
  | .arrayInit s items => Node.expr (.arrayInit s items) :: underExprs items
  | .index s array position =>
    Node.expr (.index s array position) :: underExpr array ++ underExpr position
  | .assign s left op right =>
    Node.expr (.assign s left op right) :: underExpr left ++ underExpr right
  | .binary s left op right =>
    Node.expr (.binary s left op right) :: underExpr left ++ underExpr right
  | .instanceOf s operand t =>
    Node.expr (.instanceOf s operand t) :: underExpr operand ++ underType t
  | .prefixed s op operand => Node.expr (.prefixed s op operand) :: underExpr operand
  | .postfixed s operand op => Node.expr (.postfixed s operand op) :: underExpr operand
  | .conditional s condition yes no =>
    Node.expr (.conditional s condition yes no) :: underExpr condition ++ underExpr yes
      ++ underExpr no
  | .paren s inner => Node.expr (.paren s inner) :: underExpr inner
  | .cast s t operand => Node.expr (.cast s t operand) :: underType t ++ underExpr operand

def underExprs : List Expr → List Node
  | [] => []
  | e :: es => underExpr e ++ underExprs es

end

def underModifiers (ms : List Modifier) : List Node := ms.map .modifier

def underFragment (f : Fragment) : List Node :=
  .fragment f :: ofName f.name :: underExprs f.init?.toList

def underVariables (v : Variables) : List Node :=
  underModifiers v.modifiers ++ underType v.type ++ v.fragments.flatMap underFragment

def underParameter (p : Parameter) : List Node :=
  .parameter p :: underModifiers p.modifiers ++ underType p.type ++ [ofName p.name]

def underForInit : ForInit → List Node
  | .exprs es => underExprs es
  | .locals s v => Node.locals s v :: underVariables v

mutual

def underStmt : Stmt → List Node
  | .block s body => Node.stmt (.block s body) :: underStmts body
  | .locals s vars => Node.stmt (.locals s vars) :: underVariables vars
  | .expr s e => Node.stmt (.expr s e) :: underExpr e
  | .ifThen s condition yes =>
    Node.stmt (.ifThen s condition yes) :: underExpr condition ++ underStmt yes
  | .ifElse s condition yes no =>
    Node.stmt (.ifElse s condition yes no) :: underExpr condition ++ underStmt yes ++ underStmt no
  | .whileLoop s condition body =>
    Node.stmt (.whileLoop s condition body) :: underExpr condition ++ underStmt body
  | .doLoop s body condition =>
    Node.stmt (.doLoop s body condition) :: underStmt body ++ underExpr condition
  | .forLoop s init condition? updates body =>
    Node.stmt (.forLoop s init condition? updates body) :: underForInit init
      ++ underExprs condition?.toList ++ underExprs updates ++ underStmt body
  | .forEach s item items body =>
    Node.stmt (.forEach s item items body) :: underParameter item ++ underExpr items
      ++ underStmt body
  | .ret s value? => Node.stmt (.ret s value?) :: underExprs value?.toList
  | .leave s label? => Node.stmt (.leave s label?) :: label?.toList.map ofName
  | .next s label? => Node.stmt (.next s label?) :: label?.toList.map ofName
  | .throwing s e => Node.stmt (.throwing s e) :: underExpr e
  | .empty s => [.stmt (.empty s)]

def underStmts : List Stmt → List Node
  | [] => []
  | s :: ss => underStmt s ++ underStmts ss

end

def underBlock (b : Block) : List Node := underStmt (.block b.span b.body)

def underMethod (m : Method) : List Node :=
  .method m :: underModifiers m.modifiers ++ underTypes m.returnType?.toList ++ ofName m.name
    :: m.parameters.flatMap underParameter ++ underTypes m.thrown
    ++ m.body?.toList.flatMap underBlock

def underHead (h : TypeHead) : List Node :=
  underModifiers h.modifiers ++ ofName h.name
    :: h.typeParameters.flatMap (fun p => [.typeParameter p, ofName p.name])
    ++ underTypes h.extended ++ underTypes h.implemented

mutual

def underMember : Member → List Node
  | .field f => Node.field f :: underVariables f.vars
  | .method m => underMethod m
  | .type h body => Node.decl ⟨h, body⟩ :: underHead h ++ underMembers body

def underMembers : List Member → List Node
  | [] => []
  | m :: ms => underMember m ++ underMembers ms

end

def descendants : Node → List Node
  | .unit u =>
    Node.unit u :: u.package?.toList.map .package ++ u.imports.map .importing
      ++ u.types.flatMap fun d => underMember (.type d.head d.body)
  | .package p => [.package p]
  | .importing i => [.importing i]
  | .decl d => underMember (.type d.head d.body)
  | .field f => underMember (.field f)
  | .method m => underMethod m
  | .parameter p => underParameter p
  | .fragment f => underFragment f
  | .modifier m => [.modifier m]
  | .type t => underType t
  | .typeParameter p => [.typeParameter p, ofName p.name]
  | .stmt s => underStmt s
  | .expr e => underExpr e
  | .locals s vars => Node.locals s vars :: underVariables vars

/-! ## Descendants through children -/

@[simp] theorem descendants_type (t : Ty) : (Node.type t).descendants = underType t := rfl
@[simp] theorem descendants_expr (e : Expr) : (Node.expr e).descendants = underExpr e := rfl
@[simp] theorem descendants_stmt (s : Stmt) : (Node.stmt s).descendants = underStmt s := rfl
@[simp] theorem descendants_modifier (m : Modifier) :
    (Node.modifier m).descendants = [.modifier m] := rfl
@[simp] theorem descendants_package (p : Package) :
    (Node.package p).descendants = [.package p] := rfl
@[simp] theorem descendants_importing (i : Import) :
    (Node.importing i).descendants = [.importing i] := rfl
@[simp] theorem descendants_parameter (p : Parameter) :
    (Node.parameter p).descendants = underParameter p := rfl
@[simp] theorem descendants_fragment (f : Fragment) :
    (Node.fragment f).descendants = underFragment f := rfl
@[simp] theorem descendants_typeParameter (p : TypeParameter) :
    (Node.typeParameter p).descendants = [.typeParameter p, ofName p.name] := rfl
@[simp] theorem descendants_locals (s : Span) (v : Variables) :
    (Node.locals s v).descendants = .locals s v :: underVariables v := rfl
@[simp] theorem descendants_decl (d : TypeDecl) :
    (Node.decl d).descendants = underMember (.type d.head d.body) := rfl

@[simp] theorem descendants_ofName (n : SimpleName) : (ofName n).descendants = [ofName n] := by
  simp [ofName, underExpr]

@[simp] theorem descendants_ofBlock (b : Block) : (ofBlock b).descendants = underBlock b := rfl

@[simp] theorem descendants_ofMember (m : Member) : (ofMember m).descendants = underMember m := by
  cases m <;> simp [ofMember, descendants, underMember]

theorem underTypes_eq (ts : List Ty) : underTypes ts = ts.flatMap underType := by
  induction ts with
  | nil => rfl
  | cons t ts ih => simp [underTypes, ih]

theorem underExprs_eq (es : List Expr) : underExprs es = es.flatMap underExpr := by
  induction es with
  | nil => rfl
  | cons e es ih => simp [underExprs, ih]

theorem underStmts_eq (ss : List Stmt) : underStmts ss = ss.flatMap underStmt := by
  induction ss with
  | nil => rfl
  | cons s ss ih => simp [underStmts, ih]

theorem underMembers_eq (ms : List Member) : underMembers ms = ms.flatMap underMember := by
  induction ms with
  | nil => rfl
  | cons m ms ih => simp [underMembers, ih]

/-- Nodes without children are their own descendants. -/
theorem flatMap_leaves {α : Type} (f : α → Node) (hf : ∀ a, (f a).descendants = [f a])
    (as : List α) : (as.map f).flatMap descendants = as.map f := by
  induction as with
  | nil => rfl
  | cons a as ih => simp [hf, ih]

theorem flatMap_names (ns : List SimpleName) :
    (ns.map ofName).flatMap descendants = ns.map ofName :=
  flatMap_leaves ofName descendants_ofName ns

theorem flatMap_modifiers (ms : List Modifier) :
    (ms.map Node.modifier).flatMap descendants = underModifiers ms :=
  flatMap_leaves Node.modifier descendants_modifier ms

theorem flatMap_ofVariables (v : Variables) :
    (ofVariables v).flatMap descendants = underVariables v := by
  rw [ofVariables, List.flatMap_append, flatMap_modifiers]
  simp [underVariables, List.flatMap_map]

theorem flatMap_ofForInit (i : ForInit) :
    (ofForInit i).flatMap descendants = underForInit i := by
  cases i <;> simp [ofForInit, underForInit, List.flatMap_map, underExprs_eq]

theorem underType_eq (t : Ty) :
    underType t = .type t :: (childrenOfType t).flatMap descendants := by
  cases t <;> simp [underType, childrenOfType, underTypes_eq, List.flatMap_map]

theorem underExpr_eq (e : Expr) :
    underExpr e = .expr e :: (childrenOfExpr e).flatMap descendants := by
  cases e <;> simp [underExpr, childrenOfExpr, underExprs_eq, List.flatMap_map]
  rfl

theorem underStmt_eq (s : Stmt) :
    underStmt s = .stmt s :: (childrenOfStmt s).flatMap descendants := by
  cases s with
  | leave s l => simp only [underStmt, childrenOfStmt, flatMap_names]
  | next s l => simp only [underStmt, childrenOfStmt, flatMap_names]
  | _ =>
    simp [underStmt, childrenOfStmt, underStmts_eq, underExprs_eq, List.flatMap_map,
      flatMap_ofVariables, flatMap_ofForInit, List.flatMap_append]

theorem underHead_eq (h : TypeHead) : underHead h = (childrenOfHead h).flatMap descendants := by
  simp only [underHead, childrenOfHead, List.flatMap_append, flatMap_modifiers]
  simp [List.flatMap_map, underTypes_eq]

theorem underMethod_eq (m : Method) :
    underMethod m = .method m :: (Node.method m).children.flatMap descendants := by
  simp only [underMethod, children, List.flatMap_append, flatMap_modifiers]
  simp [List.flatMap_map, underTypes_eq]

theorem underMember_eq (m : Member) :
    underMember m = ofMember m :: (ofMember m).children.flatMap descendants := by
  cases m with
  | field f => simp [underMember, ofMember, children, flatMap_ofVariables]
  | method m => simpa [underMember, ofMember] using underMethod_eq m
  | type h body =>
    simp only [underMember, ofMember, children, List.flatMap_append, underHead_eq]
    simp [underMembers_eq, List.flatMap_map]

/-- The descendants of a node are itself and those of its children in order. -/
theorem descendants_eq (n : Node) : n.descendants = n :: n.children.flatMap descendants := by
  cases n with
  | unit u =>
    simp only [descendants, children, List.flatMap_append, flatMap_leaves Node.package
      descendants_package, flatMap_leaves Node.importing descendants_importing]
    simp [List.flatMap_map]
  | package p => rfl
  | importing i => rfl
  | decl d => exact underMember_eq (.type d.head d.body)
  | field f => exact underMember_eq (.field f)
  | method m => exact underMethod_eq m
  | parameter p =>
    simp only [descendants, underParameter, children, List.flatMap_append, flatMap_modifiers]
    simp
  | fragment f => simp [underFragment, children, List.flatMap_map, underExprs_eq]
  | modifier m => rfl
  | type t => exact underType_eq t
  | typeParameter p => simp [children]
  | stmt s => exact underStmt_eq s
  | expr e => exact underExpr_eq e
  | locals s vars => simp [children, flatMap_ofVariables]

end Node

end Transcribe.Java
