/-
  Transcribe.Proofs.PieceNodes — the syntax nodes that the pieces of a derivation are made of.

  A piece is what a match is made into, and it holds nodes: itself one, several in a row, or none
  (`nodes`, `node?`). Most rules make one kind of node (`Node.rule?`); binary expressions and
  selectors are joined from several. `Made` says how a piece comes from those of its parts, and what
  is true of every node of a tree is stated with `Node.All`.
  - `made_of_assemble?`: a piece is put together from the nodes of its parts in their order; either
    it only passes them on, or it is one new node that has them as children.
-/

import Transcribe.Proofs.MatchedText
import Transcribe.Proofs.Outline
import Transcribe.Java.Node

namespace Transcribe.Java

open Grammar (InOrder Derivation Lexeme Mode Cursor Peg Takes)
open Text (Span Source)

variable {ps : List Piece} {p : Piece} {span : Span} {r : Rule} {w : List Char}

/-! ## Nodes of pieces -/

def Selector.nodes : Selector → List Node
  | .call _ n es => Node.ofName n :: es.map .expr
  | .field _ n => [Node.ofName n]
  | .index _ e => [.expr e]
  | .step _ _ => []

namespace Piece

/-- The nodes of a piece that are in no other of its nodes, in order. -/
def nodes : Piece → List Node
  | .mark _ | .dims _ | .assignOp _ | .infixOp _ | .prefixOp _ => []
  | .name n => [Node.ofName n]
  | .path n => [.type (.simple ⟨n.span, n⟩)]
  | .modifier m => [.modifier m]
  | .type t | .test _ t => [.type t]
  | .types _ ts => ts.map .type
  | .typeParameter p => [.typeParameter p]
  | .typeParameters ps => ps.map .typeParameter
  | .member m => [Node.ofMember m]
  | .members _ ms => ms.map Node.ofMember
  | .parameter p => [.parameter p]
  | .parameters ps => ps.map .parameter
  | .fragment f => [.fragment f]
  | .declared s v => [.locals s v]
  | .stmt s => [.stmt s]
  | .forInit i => Node.ofForInit i
  | .forUpdate es | .arguments es => es.map .expr
  | .expr e | .length e => [.expr e]
  | .selector s => s.nodes
  | .package p => [.package p]
  | .importing i => [.importing i]
  | .unit u => [.unit u]

def node? : Piece → Option Node
  | .name n => some (Node.ofName n)
  | .path n => some (.type (.simple ⟨n.span, n⟩))
  | .modifier m => some (.modifier m)
  | .type t => some (.type t)
  | .typeParameter p => some (.typeParameter p)
  | .member m => some (Node.ofMember m)
  | .parameter p => some (.parameter p)
  | .fragment f => some (.fragment f)
  | .declared s v => some (.locals s v)
  | .stmt s => some (.stmt s)
  | .expr e => some (.expr e)
  | .package p => some (.package p)
  | .importing i => some (.importing i)
  | .unit u => some (.unit u)
  | _ => none

def span? : Piece → Option Span
  | .members s _ | .test s _ => some s
  | .selector s => some s.span
  | p => p.node?.map Node.span

end Piece

/-- The rule whose match becomes the node; none for the nodes of binary expressions and selectors,
which are joined from several. -/
def Node.rule? : Node → Option Rule
  | .unit _ => some .compilationUnit
  | .package _ => some .packageDeclaration
  | .importing _ => some .importDeclaration
  | .decl _ => some .typeDeclaration
  | .field _ => some .fieldDeclaration
  | .method _ => some .methodDeclaration
  | .parameter _ => some .formalParameter
  | .fragment _ => some .variableDeclarator
  | .modifier (.keyword _ _) => some .modifier
  | .modifier (.tag _ _) => some .tag
  | .type (.primitive _ .void) => some .voidType
  | .type (.primitive _ _) => some .primitiveType
  | .type (.simple _) => some .qualifiedName
  | .type (.array _ _ _) => some .javaType
  | .type (.generic _ _ _) => some .classType
  | .typeParameter _ => some .typeParameter
  | .locals _ _ => some .localsDeclaration
  | .stmt s =>
    match s with
    | .block _ _ => some .block
    | .locals _ _ => some .localsStatement
    | .expr _ _ => some .expressionStatement
    | .ifThen _ _ _ | .ifElse _ _ _ _ => some .ifStatement
    | .whileLoop _ _ _ => some .whileStatement
    | .doLoop _ _ _ => some .doStatement
    | .forLoop _ _ _ _ _ => some .forStatement
    | .forEach _ _ _ _ => some .forEachStatement
    | .ret _ _ => some .returnStatement
    | .leave _ _ => some .breakStatement
    | .next _ _ => some .continueStatement
    | .throwing _ _ => some .throwStatement
    | .empty _ => some .emptyStatement
  | .expr e =>
    match e with
    | .literal _ k _ =>
      some (match k with
        | .integer => .integerLiteral
        | .float => .floatLiteral
        | .character => .charLiteral
        | .string => .stringLiteral
        | .boolean => .booleanLiteral
        | .null => .nullLiteral)
    | .name _ => some .identifier
    | .self _ => some .thisExpression
    | .call _ _ _ => some .unqualifiedCall
    | .create _ _ _ => some .classInstanceCreation
    | .newSized _ _ _ _ | .newListed _ _ _ _ _ => some .arrayCreation
    | .arrayInit _ _ => some .arrayInitializer
    | .assign _ _ _ _ => some .assignment
    | .prefixed _ _ _ => some .unaryExpression
    | .conditional _ _ _ _ => some .conditionalExpression
    | .paren _ _ => some .parenthesized
    | .cast _ _ _ => some .castExpression
    | .field _ _ _ | .invoke _ _ _ _ | .index _ _ _ | .binary _ _ _ _ | .instanceOf _ _ _
    | .postfixed _ _ _ => none

namespace Selector

theorem span_apply (e : Expr) (sel : Selector) : (sel.apply e).span = e.span.join sel.span := by
  cases sel <;> rfl

theorem rule?_apply (e : Expr) (sel : Selector) : (Node.expr (sel.apply e)).rule? = none := by
  cases sel <;> rfl

theorem children_apply (e : Expr) (sel : Selector) :
    (Node.expr (sel.apply e)).children = .expr e :: sel.nodes := by
  cases sel <;> rfl

end Selector

def Node.All (P : Node → Prop) (n : Node) : Prop := ∀ m ∈ n.descendants, P m

namespace Node.All

variable {P : Node → Prop} {n : Node}

theorem self (h : n.All P) : P n :=
  h n (by rw [Node.descendants_eq]; exact List.mem_cons_self)

theorem child (h : n.All P) {c : Node} (hc : c ∈ n.children) : c.All P := by
  intro m hm
  refine h m ?_
  rw [Node.descendants_eq]
  exact List.mem_cons_of_mem _ (List.mem_flatMap.2 ⟨c, hc, hm⟩)

/-- A child that the form of the node shows. -/
theorem part (h : n.All P) {c : Node} (hc : c ∈ n.children := by
    simp [Node.children, Node.childrenOfType, Node.childrenOfExpr, Node.childrenOfStmt, *]) :
    c.All P := h.child hc

theorem below (h : n.All P) {m : Node} (hm : m ∈ n.descendants) : m.All P :=
  Outline.of_mem_descendants (P := fun m => m.All P) (fun _ _ hall hc => hall.child hc) n h m hm

theorem of_children (h : P n) (hc : ∀ c ∈ n.children, c.All P) : n.All P := by
  intro m hm
  rw [Node.descendants_eq, List.mem_cons, List.mem_flatMap] at hm
  rcases hm with rfl | ⟨c, hcn, hm⟩
  · exact h
  · exact hc c hcn m hm

theorem imp {Q : Node → Prop} (h : n.All P) (himp : ∀ m, P m → Q m) : n.All Q :=
  fun m hm => himp m (h m hm)

end Node.All

/-! ## Pieces from pieces -/

namespace Piece

theorem nodes_mapM {α : Type} {f : Piece → Option α} {g : α → Node}
    (hf : ∀ p a, f p = some a → p.nodes = [g a]) {as : List α} (h : ps.mapM f = some as) :
    ps.flatMap nodes = as.map g := by
  induction ps generalizing as with
  | nil => simp_all
  | cons p ps ih =>
    simp only [List.mapM_cons, Option.bind_eq_bind, Option.bind_eq_some_iff, Option.pure_def,
      Option.some.injEq] at h
    obtain ⟨a, ha, as', has, rfl⟩ := h
    simp [hf p a ha, ih has]

theorem nodes_of_type? {t : Ty} (h : p.type? = some t) : p.nodes = [.type t] := by
  cases p <;> cases h <;> rfl

theorem nodes_of_expr? {e : Expr} (h : p.expr? = some e) : p.nodes = [.expr e] := by
  cases p <;> cases h <;> rfl

theorem nodes_of_stmt? {s : Stmt} (h : p.stmt? = some s) : p.nodes = [.stmt s] := by
  cases p <;> cases h <;> rfl

theorem nodes_of_member? {m : Member} (h : p.member? = some m) :
    p.nodes = [Node.ofMember m] := by
  cases p <;> cases h <;> rfl

theorem nodes_of_parameter? {q : Parameter} (h : p.parameter? = some q) :
    p.nodes = [.parameter q] := by
  cases p <;> cases h <;> rfl

theorem nodes_of_fragment? {f : Fragment} (h : p.fragment? = some f) :
    p.nodes = [.fragment f] := by
  cases p <;> cases h <;> rfl

theorem nodes_of_typeParameter? {q : TypeParameter} (h : p.typeParameter? = some q) :
    p.nodes = [.typeParameter q] := by
  cases p <;> cases h <;> rfl

theorem nodes_of_typeDecl? {d : TypeDecl} (h : p.typeDecl? = some d) :
    p.nodes = [.decl d] := by
  unfold typeDecl? at h
  split at h
  · cases h
    rfl
  · cases h

section

attribute [local simp] nodes

theorem nodes_takeModifiers (ps : List Piece) :
    ps.flatMap nodes = (takeModifiers ps).1.map .modifier ++ (takeModifiers ps).2.flatMap nodes := by
  fun_induction takeModifiers ps with
  | case1 m ps ih => simp [ih]
  | case2 ps h => simp

theorem nodes_takeImports (ps : List Piece) :
    ps.flatMap nodes = (takeImports ps).1.map .importing ++ (takeImports ps).2.flatMap nodes := by
  fun_induction takeImports ps with
  | case1 m ps ih => simp [ih]
  | case2 ps h => simp

theorem nodes_takeLengths (ps : List Piece) :
    ps.flatMap nodes = (takeLengths ps).1.map .expr ++ (takeLengths ps).2.flatMap nodes := by
  fun_induction takeLengths ps with
  | case1 m ps ih => simp [ih]
  | case2 ps h => simp

theorem nodes_takeTypeParameters (ps : List Piece) : ps.flatMap nodes =
    (takeTypeParameters ps).1.map .typeParameter ++ (takeTypeParameters ps).2.flatMap nodes := by
  unfold takeTypeParameters
  split <;> simp

theorem nodes_takeTypes (r : Rule) (ps : List Piece) :
    ps.flatMap nodes = (takeTypes r ps).1.map .type ++ (takeTypes r ps).2.flatMap nodes := by
  unfold takeTypes
  split
  · split <;> simp
  · simp

theorem nodes_takeDims (ps : List Piece) : ps.flatMap nodes = (takeDims ps).2.flatMap nodes := by
  unfold takeDims
  split <;> simp

theorem nodes_takeType (ps : List Piece) :
    ps.flatMap nodes = (takeType ps).1.toList.map .type ++ (takeType ps).2.flatMap nodes := by
  unfold takeType
  split <;> simp

theorem nodes_takeExpr (ps : List Piece) :
    ps.flatMap nodes = (takeExpr ps).1.toList.map .expr ++ (takeExpr ps).2.flatMap nodes := by
  unfold takeExpr
  split <;> simp

theorem nodes_takeForInit (ps : List Piece) :
    ps.flatMap nodes = Node.ofForInit (takeForInit ps).1 ++ (takeForInit ps).2.flatMap nodes := by
  unfold takeForInit
  split <;> simp [Node.ofForInit]

theorem nodes_takeForUpdate (ps : List Piece) :
    ps.flatMap nodes = (takeForUpdate ps).1.map .expr ++ (takeForUpdate ps).2.flatMap nodes := by
  unfold takeForUpdate
  split <;> simp

theorem nodes_takePackage (ps : List Piece) :
    ps.flatMap nodes = (takePackage ps).1.toList.map .package ++ (takePackage ps).2.flatMap nodes := by
  unfold takePackage
  split <;> simp

end

theorem nodes_declared? {v : Variables} (h : declared? ps = some v) :
    ps.flatMap nodes = Node.ofVariables v := by
  unfold declared? at h
  split at h
  · rename_i modifiers t rest htake
    obtain ⟨fragments, hfragments, rfl⟩ := Option.map_eq_some_iff.1 h
    rw [nodes_takeModifiers, htake]
    simp [nodes, Node.ofVariables, nodes_mapM (fun _ _ => nodes_of_fragment?) hfragments]
  · cases h

theorem importing?_span {i : Import} (h : importing? span ps = some i) : i.span = span := by
  unfold importing? at h
  split at h
  · split at h
    · cases h
      rfl
    · cases h
  · cases h

theorem nodes_typeMember? {m : Member} (h : typeMember? span ps = some m) :
    ∃ d : TypeDecl, Node.ofMember m = .decl d ∧ d.head.span = span ∧
      ps.flatMap nodes = (Node.decl d).children := by
  unfold typeMember? at h
  split at h
  · rename_i modifiers kind n rest htake
    simp only at h
    split at h
    · rename_i bodySpan body hrest
      cases h
      refine ⟨_, rfl, rfl, ?_⟩
      rw [nodes_takeModifiers, htake]
      simp only [List.flatMap_cons, nodes, List.nil_append, Node.children, Node.childrenOfHead]
      rw [nodes_takeTypeParameters rest, nodes_takeTypes .extendsClause,
        nodes_takeTypes .implementsClause, hrest]
      simp [nodes]
    · cases h
  · cases h

theorem nodes_method? {m : Method} (h : method? span ps = some m) :
    m.span = span ∧ ps.flatMap nodes = (Node.method m).children := by
  unfold method? at h
  simp only at h
  split at h
  · rename_i n params rest hhead
    rw [nodes_takeModifiers ps, nodes_takeType, hhead]
    simp only [List.flatMap_cons, nodes, nodes_takeTypes .throwsClause rest]
    split at h
    · rename_i hrest
      cases h
      simp [hrest, Node.children]
    · rename_i bodySpan body hrest
      cases h
      simp [hrest, Node.children, nodes, Node.ofBlock]
    · cases h
  · cases h

theorem nodes_parameterOf? {p : Parameter} (h : parameterOf? span ps = some p) :
    p.span = span ∧ ps.flatMap nodes = (Node.parameter p).children := by
  unfold parameterOf? at h
  split at h
  · rename_i modifiers t n rest htake
    split at h
    · rename_i extraDims hdims
      cases h
      rw [nodes_takeModifiers, htake]
      simp [nodes, nodes_takeDims rest, hdims, Node.children]
    · cases h
  · cases h

theorem nodes_fragmentOf? {f : Fragment} (h : fragmentOf? span ps = some f) :
    f.span = span ∧ ps.flatMap nodes = (Node.fragment f).children := by
  unfold fragmentOf? at h
  split at h
  · rename_i n rest
    rw [List.flatMap_cons, nodes_takeDims rest]
    split at h
    · rename_i extraDims hdims
      cases h
      simp [nodes, hdims, Node.children]
    · rename_i extraDims e hdims
      cases h
      simp [nodes, hdims, Node.children]
    · cases h
  · cases h

theorem nodes_forLoop? {s : Stmt} (h : forLoop? span ps = some s) :
    ∃ init condition? updates body, s = .forLoop span init condition? updates body ∧
      ps.flatMap nodes = (Node.stmt s).children := by
  unfold forLoop? at h
  simp only at h
  split at h
  · rename_i body hbody
    cases h
    refine ⟨_, _, _, _, rfl, ?_⟩
    rw [nodes_takeForInit ps, nodes_takeExpr, nodes_takeForUpdate, hbody]
    simp [nodes, Node.children, Node.childrenOfStmt]
  · cases h

theorem nodes_newArray? {e : Expr} (h : newArray? span ps = some e) :
    e.span = span ∧ Node.rule? (.expr e) = some .arrayCreation ∧
      ps.flatMap nodes = (Node.expr e).children := by
  unfold newArray? at h
  split at h
  · cases h
    exact ⟨rfl, rfl, by simp [nodes, Node.children, Node.childrenOfExpr]⟩
  · simp only at h
    rename_i t rest hne
    split at h
    · rename_i extraDims hdims
      cases h
      refine ⟨rfl, rfl, ?_⟩
      rw [List.flatMap_cons, nodes_takeLengths, nodes_takeDims, hdims]
      simp [nodes, Node.children, Node.childrenOfExpr]
    · cases h
  · cases h

theorem eq_of_binaryExpression {text : List Char}
    (h : assemble? .binaryExpression span text ps = some p) :
    ∃ first rest links, ps = .expr first :: rest ∧ links? rest = some links ∧
      p = .expr (.ofLinks first links) := by
  unfold assemble? at h
  dsimp only at h
  split at h
  · rename_i first rest
    obtain ⟨links, hlinks, rfl⟩ := Option.map_eq_some_iff.1 h
    exact ⟨first, rest, links, rfl, hlinks, rfl⟩
  · cases h

theorem eq_map_selector {sels : List Selector} (h : ps.mapM selector? = some sels) :
    ps = sels.map .selector := by
  induction ps generalizing sels with
  | nil => simp_all
  | cons p ps ih =>
    simp only [List.mapM_cons, Option.bind_eq_bind, Option.bind_eq_some_iff, Option.pure_def,
      Option.some.injEq] at h
    obtain ⟨sel, hsel, sels', hps, rfl⟩ := h
    rw [ih hps]
    cases p <;> cases hsel
    rfl

theorem eq_of_postfixExpression {text : List Char}
    (h : assemble? .postfixExpression span text ps = some p) :
    ∃ (first : Piece) (e : Expr) (sels : List Selector), ps = first :: sels.map .selector ∧
      expr? first = some e ∧ p = .expr (sels.foldl Selector.apply e) := by
  unfold assemble? at h
  dsimp only at h
  split at h
  · rename_i first rest
    split at h
    · rename_i e sels he hsels
      cases h
      exact ⟨first, e, sels, by rw [eq_map_selector hsels], he, rfl⟩
    · cases h
  · cases h

theorem nodes_unit? {u : CompilationUnit} (h : unit? span ps = some u) :
    u.span = span ∧ ps.flatMap nodes = (Node.unit u).children := by
  unfold unit? at h
  simp only at h
  split at h
  · rename_i hlast
    obtain ⟨decls, hdecls⟩ := List.getLast?_eq_some_iff.1 hlast
    obtain ⟨types, htypes, rfl⟩ := Option.map_eq_some_iff.1 h
    rw [hdecls, List.dropLast_concat] at htypes
    refine ⟨rfl, ?_⟩
    rw [nodes_takePackage ps, nodes_takeImports, hdecls, List.flatMap_append,
      nodes_mapM (fun _ _ => nodes_of_typeDecl?) htypes]
    simp [nodes, Node.children]
  · cases h

def isWrapper : Rule → Bool
  | .javaType | .classType | .expression | .conditionalExpression | .unaryExpression => true
  | _ => false

/-- What the piece of a node of rule `r` can be: it passes on the nodes of its parts, it is its only
part, or it is a new node with the nodes of its parts as children. -/
inductive Made (r : Rule) (span : Span) (ps : List Piece) : Piece → Prop where
  | parts {p : Piece} (hspan : p.span? = none ∨ p.span? = some span)
      (hnodes : p.nodes.Sublist (ps.flatMap nodes)) : Made r span ps p
  | pass {p q : Piece} (hr : isWrapper r = true) (hps : ps = [q]) (hspan : p.span? = q.span?)
      (hnodes : p.nodes = q.nodes) : Made r span ps p
  | node {p : Piece} {n : Node} (hnode : p.node? = some n) (hspan : n.span = span)
      (hrule : n.rule? = some r) (hchildren : n.children.Sublist (ps.flatMap nodes)) :
      Made r span ps p
  | wrap {p : Piece} {n m : Node} (hr : r = .localsStatement) (hps : ps.flatMap nodes = [m])
      (hnode : p.node? = some n) (hspan : n.span = span) (hrule : n.rule? = some r)
      (hchildren : n.children = m.children) : Made r span ps p

def isPlainTree (r : Rule) : Bool :=
  r.kind == .tree && r != .binaryExpression && r != .postfixExpression

theorem Made.list {α : Type} {f : Piece → Option α} {g : α → Node} {make : List α → Piece}
    (hf : ∀ p a, f p = some a → p.nodes = [g a]) (h : (ps.mapM f).map make = some p)
    (hspan : ∀ as, (make as).span? = none ∨ (make as).span? = some span)
    (hmake : ∀ as, (make as).nodes = as.map g) : Made r span ps p := by
  obtain ⟨as, has, rfl⟩ := Option.map_eq_some_iff.1 h
  exact .parts (hspan as) (by simp [hmake, nodes_mapM hf has])

theorem Made.branch {α : Type} {f : Piece → Option α} {g : α → Node} {make : List α → Piece}
    {node : List α → Node} (hf : ∀ p a, f p = some a → p.nodes = [g a])
    (h : (ps.mapM f).map make = some p) (hmake : ∀ as, (make as).node? = some (node as))
    (hspan : ∀ as, (node as).span = span) (hrule : ∀ as, (node as).rule? = some r)
    (hchildren : ∀ as, (node as).children = as.map g) :
    Made r span ps p := by
  obtain ⟨as, has, rfl⟩ := Option.map_eq_some_iff.1 h
  exact .node (hmake as) (hspan as) (hrule as)
    (by simp [hchildren, nodes_mapM hf has])

theorem made_of_assemble? {text : List Char} (hr : isPlainTree r = true)
    (h : assemble? r span text ps = some p) : Made r span ps p := by
  unfold assemble? at h
  cases r
  all_goals first | exact absurd hr Bool.false_ne_true | skip
  all_goals dsimp only at h
  case typeArguments | extendsClause | implementsClause | throwsClause =>
    exact .list (fun _ _ => nodes_of_type?) h (fun _ => .inl rfl) (fun _ => rfl)
  case typeParameters =>
    exact .list (fun _ _ => nodes_of_typeParameter?) h (fun _ => .inl rfl) (fun _ => rfl)
  case formalParameters =>
    exact .list (fun _ _ => nodes_of_parameter?) h (fun _ => .inl rfl) (fun _ => rfl)
  case classBody =>
    exact .list (fun _ _ => nodes_of_member?) h (fun _ => .inr rfl) (fun _ => rfl)
  case forUpdate | arguments | tagArguments =>
    exact .list (fun _ _ => nodes_of_expr?) h (fun _ => .inl rfl) (fun _ => rfl)
  case arrayInitializer =>
    exact .branch (fun _ _ => nodes_of_expr?) h (fun _ => rfl) (fun _ => rfl) (fun _ => rfl)
      (fun _ => rfl)
  case block =>
    exact .branch (fun _ _ => nodes_of_stmt?) h (fun _ => rfl) (fun _ => rfl) (fun _ => rfl)
      (fun _ => rfl)
  case endOfInput | importOnDemand | dims =>
    cases h
    exact .parts (.inl rfl) (by simp [nodes])
  case emptyStatement =>
    cases h
    exact .node rfl rfl rfl (by simp [Node.children, Node.childrenOfStmt])
  case qualifiedName =>
    obtain ⟨ns, -, rfl⟩ := Option.map_eq_some_iff.1 h
    exact .node rfl rfl rfl (by simp [Node.children, Node.childrenOfType])
  case importDeclaration =>
    obtain ⟨i, hi, rfl⟩ := Option.map_eq_some_iff.1 h
    exact .node rfl (importing?_span hi) rfl (by simp [Node.children])
  case typeDeclaration =>
    obtain ⟨m, hm, rfl⟩ := Option.map_eq_some_iff.1 h
    obtain ⟨d, hd, hspan, hnodes⟩ := nodes_typeMember? hm
    exact .node (n := .decl d) (by rw [node?, hd]) hspan rfl (hnodes ▸ .refl _)
  case methodDeclaration =>
    obtain ⟨m, hm, rfl⟩ := Option.map_eq_some_iff.1 h
    obtain ⟨hspan, hnodes⟩ := nodes_method? hm
    exact .node rfl hspan rfl (hnodes ▸ .refl _)
  case formalParameter =>
    obtain ⟨q, hq, rfl⟩ := Option.map_eq_some_iff.1 h
    obtain ⟨hspan, hnodes⟩ := nodes_parameterOf? hq
    exact .node rfl hspan rfl (hnodes ▸ .refl _)
  case variableDeclarator =>
    obtain ⟨f, hf, rfl⟩ := Option.map_eq_some_iff.1 h
    obtain ⟨hspan, hnodes⟩ := nodes_fragmentOf? hf
    exact .node rfl hspan rfl (hnodes ▸ .refl _)
  case fieldDeclaration | localsDeclaration =>
    obtain ⟨v, hv, rfl⟩ := Option.map_eq_some_iff.1 h
    exact .node rfl rfl rfl (nodes_declared? hv ▸ .refl _)
  case forStatement =>
    obtain ⟨s, hs, rfl⟩ := Option.map_eq_some_iff.1 h
    obtain ⟨_, _, _, _, rfl, hnodes⟩ := nodes_forLoop? hs
    exact .node rfl rfl rfl (hnodes ▸ .refl _)
  case arrayCreation =>
    obtain ⟨e, he, rfl⟩ := Option.map_eq_some_iff.1 h
    obtain ⟨hspan, hrule, hnodes⟩ := nodes_newArray? he
    exact .node rfl hspan hrule (hnodes ▸ .refl _)
  case compilationUnit =>
    obtain ⟨u, hu, rfl⟩ := Option.map_eq_some_iff.1 h
    obtain ⟨hspan, hnodes⟩ := nodes_unit? hu
    exact .node rfl hspan rfl (hnodes ▸ .refl _)
  case localsStatement =>
    split at h
    · cases h
      exact .wrap rfl rfl rfl rfl rfl rfl
    · cases h
  case javaType =>
    obtain ⟨t, ht, rfl⟩ := Option.map_eq_some_iff.1 h
    unfold javaType? at ht
    split at ht
    · cases ht
      exact .pass rfl rfl rfl rfl
    · cases ht
      exact .node rfl rfl rfl (.refl _)
    · cases ht
  case classType =>
    obtain ⟨t, ht, rfl⟩ := Option.map_eq_some_iff.1 h
    unfold classType? at ht
    split at ht
    · cases ht
      exact .pass rfl rfl rfl rfl
    · cases ht
      exact .node rfl rfl rfl (by simp [nodes, Node.children, Node.childrenOfType])
    · cases ht
  case forInit =>
    split at h
    · cases h
      exact .parts (.inl rfl) (.refl _)
    · exact .list (fun _ _ => nodes_of_expr?) h (fun _ => .inl rfl) (fun _ => rfl)
  case returnStatement =>
    split at h
    · rename_i value? hvalue
      cases h
      refine .node rfl rfl rfl ?_
      rw [nodes_takeExpr, hvalue]
      exact List.sublist_append_left _ _
    · cases h
  case breakStatement | continueStatement =>
    obtain ⟨label?, hlabel, rfl⟩ := Option.map_eq_some_iff.1 h
    unfold firstName? at hlabel
    split at hlabel
    · cases hlabel
      exact .node rfl rfl rfl (.refl _)
    · cases hlabel
      exact .node rfl rfl rfl (.refl _)
    · cases hlabel
  case expression =>
    split at h
    · cases h
      exact .pass rfl rfl rfl rfl
    · cases h
  case conditionalExpression | unaryExpression =>
    split at h
    · cases h
      exact .pass rfl rfl rfl rfl
    · cases h
      exact .node rfl rfl rfl (.refl _)
    · cases h
  case ifStatement =>
    split at h
    · cases h
      exact .node rfl rfl rfl (.refl _)
    · cases h
      exact .node rfl rfl rfl (.refl _)
    · cases h
  case dimExpr =>
    split at h
    · cases h
      exact .parts (.inl rfl) (.refl _)
    · cases h
  case instanceofSuffix | fieldSelector | indexSelector =>
    split at h
    · cases h
      exact .parts (.inr rfl) (.refl _)
    · cases h
  case methodSelector =>
    split at h
    · cases h
      exact .parts (.inr rfl) (by simp [nodes, Selector.nodes])
    · cases h
  case packageDeclaration | tag =>
    split at h
    · cases h
      exact .node rfl rfl rfl (List.nil_sublist _)
    · cases h
  all_goals
    split at h
    · cases h
      exact .node rfl rfl rfl
        (by simp [nodes, Node.children, Node.childrenOfExpr, Node.childrenOfStmt])
    · cases h

end Piece

/-! ## Tokens -/

/-- What one of some words matched is one of them. -/
theorem of_oneOf {m : Mode} {ws : List String} {c d : Cursor} {parts : List (Derivation Rule)}
    (hw : c.Reaches w d) (h : Takes Rule.grammar m (.once (Peg.oneOf ws)) c parts d) :
    String.ofList w ∈ ws := by
  cases h with
  | words hmem hafter =>
    obtain ⟨t, ht, rfl⟩ := List.mem_map.1 hmem
    have hsame := (Grammar.reaches_of_afterWord? hafter).rest_eq
    rw [hw.rest_eq] at hsame
    rw [List.append_cancel_right hsame, String.ofList_toList]
    exact ht

theorem Spells.of_wholeWord {ws : List String} (hr : r.body = Rule.wholeWord ws) (h : Spells r w) :
    String.ofList w ∈ ws := by
  obtain ⟨m, c, parts, d, hm, hw, htakes⟩ := h
  have hbody : Rule.grammar.body r = Rule.wholeWord ws := hr
  rw [hbody] at htakes
  obtain ⟨_, mid, _, hword, hahead⟩ := htakes.of_seq hm
  obtain ⟨rfl, -⟩ := hahead.of_notAhead
  exact of_oneOf hw hword

theorem rule?_of_primitiveType {k : Primitive} (hw : Spells .primitiveType w)
    (h : ofWord? (String.ofList w) = some k) :
    Node.rule? (.type (.primitive span k)) = some .primitiveType := by
  have hall : ∀ t ∈ primitiveWords, ofWord? t ≠ some Primitive.void := by decide
  cases k with
  | void => exact absurd h (hall _ (hw.of_wholeWord rfl))
  | _ => rfl

theorem rule?_of_voidType {k : Primitive} (hw : Spells .voidType w)
    (h : ofWord? (String.ofList w) = some k) :
    Node.rule? (.type (.primitive span k)) = some .voidType := by
  have hword := hw.of_wholeWord rfl
  rw [List.mem_singleton] at hword
  rw [hword] at h
  cases h
  rfl

/-- The piece of a token: a word that is no node, or a node without children. -/
theorem made_of_token (hr : r.kind = .token) (hw : Spells r w)
    (h : Piece.assemble? r span w [] = some p) : Piece.Made r span [] p := by
  unfold Piece.assemble? at h
  cases r
  all_goals first | (exact absurd hr (by decide)) | skip
  all_goals dsimp only at h
  case primitiveType =>
    obtain ⟨k, hk, rfl⟩ := Option.map_eq_some_iff.1 h
    exact .node rfl rfl (rule?_of_primitiveType hw hk) (.refl _)
  case voidType =>
    obtain ⟨k, hk, rfl⟩ := Option.map_eq_some_iff.1 h
    exact .node rfl rfl (rule?_of_voidType hw hk) (.refl _)
  case modifier =>
    obtain ⟨k, -, rfl⟩ := Option.map_eq_some_iff.1 h
    exact .node rfl rfl rfl (.refl _)
  case assignmentOperator | prefixOperator | infixOperator =>
    obtain ⟨op, -, rfl⟩ := Option.map_eq_some_iff.1 h
    exact .parts (.inl rfl) (.refl _)
  case postfixOperator =>
    obtain ⟨op, -, rfl⟩ := Option.map_eq_some_iff.1 h
    exact .parts (.inr rfl) (.refl _)
  case kwClass | kwInterface | importStatic =>
    cases h
    exact .parts (.inl rfl) (.refl _)
  case identifier | thisExpression | floatLiteral | integerLiteral | charLiteral | stringLiteral
      | booleanLiteral | nullLiteral =>
    cases h
    exact .node rfl rfl rfl (.refl _)
  all_goals cases h

end Transcribe.Java
