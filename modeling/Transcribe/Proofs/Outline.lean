/-
  Transcribe.Proofs.Outline — the tokens of a tree, and when a tree is faithful to a text.

  The outline of a node lists what the grammar puts into it, in order: its tokens, and where
  each node begins and ends. Following an outline through a text goes from token to token over
  space and comments, compares every token with the text and every span with the offsets at
  hand. A tree is faithful to a text if its outline can be followed from the start to the end.

  There is an outline for every kind of node (`ofNode`), put together from those of its children and
  from a few shapes: a node in its span (`framed`), items with commas between them (`commaList`),
  items in brackets of any kind. It is a second account of the syntax beside the grammar: nothing in
  it looks for a match. `Reads` follows an outline from one boundary to another, and an outline is
  `Found` if it can be followed from somewhere. One that has a token moves on, and has text of its
  own if the token is not empty (`moving`, `solid`).
  - `reads_append`: an outline can be cut anywhere.
  - `found_of_mem_descendants`: every node of a faithful tree has its outline in the text.
-/

import Transcribe.Proofs.Place
import Transcribe.Java.Node

namespace Transcribe

open Text (Span Source byteLength)
open Java (SimpleName Name Modifier SimpleType Ty TypeParameter Expr Fragment Variables Parameter
  ForInit Stmt Block Package Import Field Method TypeHead Member TypeDecl CompilationUnit Node)

inductive Mark where
  /-- This token comes next. -/
  | token (t : String)
  /-- This token comes next or is left out. -/
  | maybe (t : String)
  /-- Tokens that are not in the tree, if there are any, up to an offset. -/
  | reach (stop : Nat)
  /-- A node begins with the next token. -/
  | first (span : Span)
  /-- A node ends with the last token. -/
  | last (span : Span)
  /-- What the grammar asks for besides. -/
  | demand (holds : Bool)
  deriving Repr, DecidableEq

abbrev Outline := List Mark

variable {o o' : Nat} {t : String} {m : Outline} {span : Span} {n c : Node}

/-- Where one gets from `o`, the end of a token. -/
def Mark.follow (s : Source) (o : Nat) : Mark → Option Nat
  | .token t =>
    let next := s.skipSpace false o
    if s.hasAt next t then some (next + byteLength t.toList) else none
  | .maybe t =>
    let next := s.skipSpace false o
    some (if s.hasAt next t then next + byteLength t.toList else o)
  | .reach stop =>
    if stop = o ∨ s.skipSpace false o ≤ stop ∧ (s.rest? stop).isSome then some stop else none
  | .first span => if span.start = s.skipSpace false o then some span.start else none
  | .last span => if span.stop = o then some o else none
  | .demand holds => if holds then some o else none

namespace Outline

def follow (s : Source) : Outline → Nat → Option Nat
  | [], o => some o
  | m :: ms, o => (m.follow s o).bind (follow s ms)

/-! ## Outlines of trees -/

def framed (span : Span) (body : Outline) : Outline := .first span :: body ++ [.last span]

def commaList : List Outline → Outline
  | [] => []
  | first :: rest => first ++ rest.flatMap fun item => .token "," :: item

def ofName (n : SimpleName) : Outline := framed n.span [.token n.text]

def ofPath (n : Name) : Outline :=
  .demand (!n.segments.isEmpty) :: [.token "."].intercalate (n.segments.map fun s => [.token s.text])

/-- The arguments of an annotation are not in the tree. -/
def ofModifier : Modifier → Outline
  | .keyword span k => framed span [.token (Java.word k)]
  | .tag span name => framed span (.token "@" :: ofPath name ++ [.reach span.stop])

def ofModifiers (ms : List Modifier) : Outline := ms.flatMap ofModifier

def brackets (n : Nat) : Outline := (List.replicate n [.token "[", .token "]"]).flatten

def ofSimpleType (t : SimpleType) : Outline := framed t.span (ofPath t.name)

mutual

def ofType : Ty → Outline
  | .primitive span k => framed span [.token (Java.word k)]
  | .simple t => ofSimpleType t
  | .array span element dims => framed span (ofType element ++ brackets dims)
  | .generic span base arguments =>
    framed span (ofSimpleType base ++ [.token "<"] ++ commaList (ofTypes arguments) ++ [.token ">"])

def ofTypes : List Ty → List Outline
  | [] => []
  | t :: ts => ofType t :: ofTypes ts

end

def ofTypeParameter (t : TypeParameter) : Outline := framed t.span (ofName t.name)

def ofArgumentList (arguments : List Outline) : Outline :=
  [.token "("] ++ commaList arguments ++ [.token ")"]

/-- Items in braces. A comma may stand behind the last. -/
def ofItems (items : List Outline) : Outline :=
  [.token "\x7b"] ++ commaList items ++ [.maybe ","] ++ [.token "\x7d"]

def ofLengths (lengths : List Outline) : Outline :=
  lengths.flatMap fun length => [.token "["] ++ length ++ [.token "]"]

mutual

def ofExpr : Expr → Outline
  | .literal span kind word => framed span [.demand (kind != .null || word == "null"), .token word]
  | .name n => ofName n
  | .self span => framed span [.token "this"]
  | .field span target name => framed span (ofExpr target ++ [.token "."] ++ ofName name)
  | .call span name arguments => framed span (ofName name ++ ofArgumentList (ofExprs arguments))
  | .invoke span target name arguments =>
    framed span (ofExpr target ++ [.token "."] ++ ofName name ++ ofArgumentList (ofExprs arguments))
  | .create span type arguments =>
    framed span ([.token "new"] ++ ofType type ++ ofArgumentList (ofExprs arguments))
  | .newSized span element lengths extraDims =>
    framed span ([.demand (!lengths.isEmpty), .token "new"] ++ ofType element
      ++ ofLengths (ofExprs lengths) ++ brackets extraDims)
  | .newListed span element extraDims listSpan items =>
    framed span ([.demand (0 < extraDims), .token "new"] ++ ofType element ++ brackets extraDims
      ++ framed listSpan (ofItems (ofExprs items)))
  | .arrayInit span items => framed span (ofItems (ofExprs items))
  | .index span array position =>
    framed span (ofExpr array ++ [.token "["] ++ ofExpr position ++ [.token "]"])
  | .assign span left op right =>
    framed span (ofExpr left ++ [.token (Java.word op)] ++ ofExpr right)
  | .binary span left op right =>
    framed span (ofExpr left ++ [.token (Java.word op)] ++ ofExpr right)
  | .instanceOf span operand type =>
    framed span (ofExpr operand ++ [.token "instanceof"] ++ ofType type)
  | .prefixed span op operand => framed span ([.token (Java.word op)] ++ ofExpr operand)
  | .postfixed span operand op => framed span (ofExpr operand ++ [.token (Java.word op)])
  | .conditional span condition yes no =>
    framed span (ofExpr condition ++ [.token "?"] ++ ofExpr yes ++ [.token ":"] ++ ofExpr no)
  | .paren span inner => framed span ([.token "("] ++ ofExpr inner ++ [.token ")"])
  | .cast span type operand =>
    framed span ([.token "("] ++ ofType type ++ [.token ")"] ++ ofExpr operand)

def ofExprs : List Expr → List Outline
  | [] => []
  | e :: es => ofExpr e :: ofExprs es

end

/-! ## Outlines of variables and statements -/

def ofInit : Option Expr → Outline
  | none => []
  | some e => [.token "="] ++ ofExpr e

def ofFragment (f : Fragment) : Outline :=
  framed f.span (ofName f.name ++ (brackets f.extraDims ++ ofInit f.init?))

def ofVariables (v : Variables) : Outline :=
  ofModifiers v.modifiers ++ (ofType v.type ++ commaList (v.fragments.map ofFragment))

def ofParameter (p : Parameter) : Outline :=
  framed p.span (ofModifiers p.modifiers ++ (ofType p.type ++ ofName p.name ++ brackets p.extraDims))

def ofForInit : ForInit → List Outline
  | .exprs es => ofExprs es
  | .locals span vars => [framed span (ofVariables vars)]

def ofCondition (e : Expr) : Outline := [.token "("] ++ ofExpr e ++ [.token ")"]

def ofJump (word : String) (label? : Option SimpleName) : Outline :=
  [.token word] ++ label?.toList.flatMap ofName ++ [.token ";"]

mutual

def ofStmt : Stmt → Outline
  | .block span body => framed span ([.token "\x7b"] ++ ofStmts body ++ [.token "\x7d"])
  | .locals span vars => framed span (ofVariables vars ++ [.token ";"])
  | .expr span e => framed span (ofExpr e ++ [.token ";"])
  | .ifThen span condition yes =>
    framed span ([.token "if"] ++ ofCondition condition ++ ofStmt yes)
  | .ifElse span condition yes no =>
    framed span ([.token "if"] ++ ofCondition condition ++ ofStmt yes ++ [.token "else"]
      ++ ofStmt no)
  | .whileLoop span condition body =>
    framed span ([.token "while"] ++ ofCondition condition ++ ofStmt body)
  | .doLoop span body condition =>
    framed span ([.token "do"] ++ ofStmt body ++ [.token "while"] ++ ofCondition condition
      ++ [.token ";"])
  | .forLoop span init condition? updates body =>
    framed span ([.token "for"] ++ [.token "("] ++ commaList (ofForInit init) ++ [.token ";"]
      ++ condition?.toList.flatMap ofExpr ++ [.token ";"] ++ commaList (ofExprs updates)
      ++ [.token ")"] ++ ofStmt body)
  | .forEach span item items body =>
    framed span ([.token "for"] ++ [.token "("] ++ ofParameter item ++ [.token ":"]
      ++ ofExpr items ++ [.token ")"] ++ ofStmt body)
  | .ret span value? =>
    framed span ([.token "return"] ++ value?.toList.flatMap ofExpr ++ [.token ";"])
  | .leave span label? => framed span (ofJump "break" label?)
  | .next span label? => framed span (ofJump "continue" label?)
  | .throwing span e => framed span ([.token "throw"] ++ ofExpr e ++ [.token ";"])
  | .empty span => framed span [.token ";"]

def ofStmts : List Stmt → Outline
  | [] => []
  | t :: ts => ofStmt t ++ ofStmts ts

end

/-! ## Outlines of declarations -/

def ofBlock (b : Block) : Outline := ofStmt (.block b.span b.body)

def ofClause (word : String) (ts : List Ty) : Outline :=
  if ts.isEmpty then [] else [.token word] ++ commaList (ts.map ofType)

def ofMethodBody : Option Block → Outline
  | some b => ofBlock b
  | none => [.token ";"]

def ofParameterList (ps : List Parameter) : Outline :=
  [.token "("] ++ commaList (ps.map ofParameter) ++ [.token ")"]

def ofMethod (m : Method) : Outline :=
  framed m.span (ofModifiers m.modifiers ++ (m.returnType?.toList.flatMap ofType ++ ofName m.name
    ++ ofParameterList m.parameters ++ ofClause "throws" m.thrown ++ ofMethodBody m.body?))

def ofField (f : Field) : Outline := framed f.span (ofVariables f.vars ++ [.token ";"])

def ofTypeParameters (ps : List TypeParameter) : Outline :=
  if ps.isEmpty then [] else [.token "<"] ++ commaList (ps.map ofTypeParameter) ++ [.token ">"]

def ofHead (h : TypeHead) : Outline :=
  ofModifiers h.modifiers ++ ([.token (if h.isInterface then "interface" else "class")]
    ++ ofName h.name ++ ofTypeParameters h.typeParameters ++ ofClause "extends" h.extended
    ++ ofClause "implements" h.implemented ++ [.token "\x7b"])

mutual

def ofMember : Member → Outline
  | .field f => ofField f
  | .method m => ofMethod m
  | .type h body => framed h.span (ofHead h ++ ofMembers body ++ [.token "\x7d"])

def ofMembers : List Member → Outline
  | [] => []
  | m :: ms => ofMember m ++ ofMembers ms

end

def ofDecl (d : TypeDecl) : Outline := ofMember (.type d.head d.body)

def ofPackage (p : Package) : Outline :=
  framed p.span ([.token "package"] ++ ofPath p.name ++ [.token ";"])

def ofImport (i : Import) : Outline :=
  framed i.span ([.token "import"] ++ (if i.isStatic then [.token "static"] else [])
    ++ ofPath i.name ++ (if i.onDemand then [.token ".", .token "*"] else []) ++ [.token ";"])

def ofUnit (u : CompilationUnit) : Outline :=
  u.package?.toList.flatMap ofPackage ++ u.imports.flatMap ofImport ++ u.types.flatMap ofDecl

def ofNode : Node → Outline
  | .unit u => ofUnit u
  | .package p => ofPackage p
  | .importing i => ofImport i
  | .decl d => ofDecl d
  | .field f => ofField f
  | .method m => ofMethod m
  | .parameter p => ofParameter p
  | .fragment f => ofFragment f
  | .modifier m => ofModifier m
  | .type t => ofType t
  | .typeParameter p => ofTypeParameter p
  | .stmt t => ofStmt t
  | .expr e => ofExpr e
  | .locals span vars => framed span (ofVariables vars)

/-! ## Following an outline -/

variable {s : Source}

def Reads (s : Source) (m : Outline) (o o' : Nat) : Prop := s.Boundary o ∧ m.follow s o = some o'

theorem hasAt_iff :
    s.hasAt o t = true ↔ ∃ cs, s.rest? o = some (t.toList ++ cs) := by
  cases h : s.rest? o with
  | none => simp [Source.hasAt, h]
  | some cs =>
    simp only [Source.hasAt, h, Option.any_some, List.isPrefixOf_iff_prefix, Option.some.injEq]
    constructor
    · rintro ⟨r, rfl⟩; exact ⟨r, rfl⟩
    · rintro ⟨r, rfl⟩; exact ⟨r, rfl⟩

/-- A token that stands behind a gap ends at a boundary. -/
theorem boundary_token (h : s.hasAt (s.skipSpace false o) t = true) :
    s.Boundary (s.skipSpace false o + byteLength t.toList) := by
  obtain ⟨cs, hcs⟩ := hasAt_iff.1 h
  exact ⟨cs, Source.rest?_add hcs⟩

theorem mark_follow {m : Mark} (hb : s.Boundary o) (h : m.follow s o = some o') :
    s.Boundary o' ∧ o ≤ o' := by
  have hn := Source.le_skipSpace (s := s) false o
  cases m with
  | token t =>
    simp only [Mark.follow] at h
    split at h
    · rename_i ht
      obtain rfl := Option.some.inj h
      exact ⟨boundary_token ht, by omega⟩
    · cases h
  | maybe t =>
    simp only [Mark.follow, Option.some.injEq] at h
    split at h
    · rename_i ht
      subst h
      exact ⟨boundary_token ht, by omega⟩
    · subst h; exact ⟨hb, Nat.le_refl _⟩
  | reach stop =>
    simp only [Mark.follow] at h
    split at h
    · rename_i hs
      obtain rfl := Option.some.inj h
      rcases hs with rfl | ⟨hs, hb'⟩
      · exact ⟨hb, Nat.le_refl _⟩
      · exact ⟨Option.isSome_iff_exists.1 hb', by omega⟩
    · cases h
  | first span =>
    simp only [Mark.follow] at h
    split at h
    · rename_i hs
      obtain rfl := Option.some.inj h
      rw [hs]
      exact ⟨(Source.inGap_skipSpace false hb).boundary, hn⟩
    · cases h
  | last span =>
    simp only [Mark.follow] at h
    split at h
    · obtain rfl := Option.some.inj h; exact ⟨hb, Nat.le_refl _⟩
    · cases h
  | demand holds =>
    simp only [Mark.follow] at h
    split at h
    · obtain rfl := Option.some.inj h; exact ⟨hb, Nat.le_refl _⟩
    · cases h

theorem reads_nil : Reads s [] o o' ↔ s.Boundary o ∧ o = o' := by
  simp [Reads, follow]

theorem reads_singleton {m : Mark} :
    Reads s [m] o o' ↔ s.Boundary o ∧ m.follow s o = some o' := by
  simp [Reads, follow]

theorem reads_cons {m : Mark} {a : Outline} {o'' : Nat} :
    Reads s (m :: a) o o'' ↔ ∃ o', Reads s [m] o o' ∧ Reads s a o' o'' := by
  simp only [reads_singleton]
  simp only [Reads, follow, Option.bind_eq_some_iff]
  constructor
  · rintro ⟨hb, o', hm, ha⟩
    exact ⟨o', ⟨hb, hm⟩, (mark_follow hb hm).1, ha⟩
  · rintro ⟨o', ⟨hb, hm⟩, -, ha⟩
    exact ⟨hb, o', hm, ha⟩

/-- An outline can be cut anywhere. -/
theorem reads_append {a b : Outline} {o'' : Nat} :
    Reads s (a ++ b) o o'' ↔ ∃ o', Reads s a o o' ∧ Reads s b o' o'' := by
  induction a generalizing o with
  | nil =>
    simp only [List.nil_append, reads_nil]
    constructor
    · intro h; exact ⟨o, ⟨h.1, rfl⟩, h⟩
    · rintro ⟨_, ⟨-, rfl⟩, h⟩; exact h
  | cons m a ih =>
    rw [List.cons_append, reads_cons]
    constructor
    · rintro ⟨x, hm, h⟩
      obtain ⟨y, ha, hb⟩ := ih.1 h
      exact ⟨y, reads_cons.2 ⟨x, hm, ha⟩, hb⟩
    · rintro ⟨y, h, hb⟩
      obtain ⟨x, hm, ha⟩ := reads_cons.1 h
      exact ⟨x, hm, ih.2 ⟨y, ha, hb⟩⟩

theorem Reads.boundary (h : Reads s m o o') : s.Boundary o' := by
  induction m generalizing o with
  | nil => obtain ⟨hb, rfl⟩ := reads_nil.1 h; exact hb
  | cons m a ih =>
    obtain ⟨x, -, ha⟩ := reads_cons.1 h
    exact ih ha

theorem Reads.le (h : Reads s m o o') : o ≤ o' := by
  induction m generalizing o with
  | nil => obtain ⟨-, rfl⟩ := reads_nil.1 h; exact Nat.le_refl _
  | cons m a ih =>
    obtain ⟨x, hm, ha⟩ := reads_cons.1 h
    obtain ⟨hb, hm⟩ := reads_singleton.1 hm
    exact Nat.le_trans (mark_follow hb hm).2 (ih ha)

theorem reads_token :
    Reads s [.token t] o o' ↔ s.Boundary o ∧ s.hasAt (s.skipSpace false o) t = true ∧
      o' = s.skipSpace false o + byteLength t.toList := by
  rw [reads_singleton, Mark.follow]
  constructor
  · rintro ⟨hb, h⟩
    split at h
    · rename_i ht; exact ⟨hb, ht, (Option.some.inj h).symm⟩
    · cases h
  · rintro ⟨hb, ht, rfl⟩; exact ⟨hb, if_pos ht⟩

theorem reads_framed :
    Reads s (framed span m) o o' ↔ s.Boundary o ∧ span.start = s.skipSpace false o ∧
      Reads s m span.start o' ∧ span.stop = o' := by
  rw [framed, List.cons_append, reads_cons]
  simp only [reads_append, reads_singleton, Mark.follow, Option.ite_none_right_eq_some,
    Option.some.injEq]
  constructor
  · rintro ⟨x, ⟨hb, hs, rfl⟩, y, hm, -, he, rfl⟩; exact ⟨hb, hs, hm, he⟩
  · rintro ⟨hb, hs, hm, he⟩; exact ⟨_, ⟨hb, hs, rfl⟩, o', hm, hm.boundary, he, rfl⟩

/-! ## Progress -/

/-- A mark that moves at all moves to the next token or behind it. -/
theorem mark_follow_cases {m : Mark} (h : m.follow s o = some o') :
    o' = o ∨ s.skipSpace false o ≤ o' := by
  cases m with
  | maybe t =>
    simp only [Mark.follow, Option.some.injEq] at h
    split at h <;> omega
  | _ =>
    simp only [Mark.follow, Option.ite_none_right_eq_some, Option.some.injEq] at h
    omega

def moving (m : Outline) : Bool := m.any fun
  | .token _ | .first _ => true
  | _ => false

def solid (m : Outline) : Bool := m.any fun
  | .token t => t != ""
  | _ => false

@[simp] theorem moving_append (a b : Outline) : (a ++ b).moving = (a.moving || b.moving) := by
  simp [moving]

@[simp] theorem moving_token (t : String) (a : Outline) : moving (.token t :: a) = true := rfl

@[simp] theorem moving_framed (span : Span) (m : Outline) : (framed span m).moving = true := rfl

@[simp] theorem solid_append (a b : Outline) : (a ++ b).solid = (a.solid || b.solid) := by
  simp [solid]

@[simp] theorem solid_token (t : String) (a : Outline) :
    solid (.token t :: a) = (t != "" || a.solid) := rfl

theorem Reads.skipSpace_le (h : Reads s m o o') (hm : m.moving = true) :
    s.skipSpace false o ≤ o' := by
  induction m generalizing o with
  | nil => cases hm
  | cons m a ih =>
    obtain ⟨x, h1, h2⟩ := reads_cons.1 h
    have hx := h2.le
    rcases mark_follow_cases (reads_singleton.1 h1).2 with rfl | hle
    · cases m with
      | token t =>
        obtain ⟨-, -, hx'⟩ := reads_token.1 h1
        omega
      | first span =>
        have h1 := (reads_singleton.1 h1).2
        simp only [Mark.follow, Option.ite_none_right_eq_some, Option.some.injEq] at h1
        omega
      | _ => exact ih h2 hm
    · omega

theorem byteLength_pos_of_ne (h : t ≠ "") : 0 < byteLength t.toList := by
  cases ht : t.toList with
  | nil => exact absurd (String.toList_eq_nil_iff.1 ht) h
  | cons c cs =>
    have := c.utf8Size_pos
    rw [Text.byteLength_cons]
    omega

theorem Reads.skipSpace_lt (h : Reads s m o o') (hm : m.solid = true) :
    s.skipSpace false o < o' := by
  induction m generalizing o with
  | nil => cases hm
  | cons m a ih =>
    obtain ⟨x, h1, h2⟩ := reads_cons.1 h
    by_cases ha : solid a = true
    · have hx := ih h2 ha
      have hn := Source.le_skipSpace (s := s) false x
      rcases mark_follow_cases (reads_singleton.1 h1).2 with rfl | hle <;> omega
    · cases m with
      | token t =>
        have ht := byteLength_pos_of_ne (t := t) (by simpa [ha] using hm)
        obtain ⟨-, -, rfl⟩ := reads_token.1 h1
        have := h2.le
        omega
      | _ => exact absurd hm ha

/-! ## Where outlines end -/

/-- A node ends with its span. -/
theorem Reads.stop_eq (h : Reads s (framed span m) o o') :
    span.stop = o' :=
  (reads_framed.1 h).2.2.2

theorem Reads.last_eq (h : Reads s (m ++ [Mark.last span]) o o') : span.stop = o' := by
  obtain ⟨x, -, hx⟩ := reads_append.1 h
  have hx := (reads_singleton.1 hx).2
  simp only [Mark.follow, Option.ite_none_right_eq_some, Option.some.injEq] at hx
  exact hx.1.trans hx.2

theorem ofType_framed (t : Ty) : ∃ m, ofType t = framed t.span m := by
  cases t with
  | simple t => exact ⟨_, by rw [ofType, ofSimpleType]; rfl⟩
  | _ => exact ⟨_, by rw [ofType]; rfl⟩

/-- A list ends with its last item. -/
theorem commaList_concat (as : List Outline) (a : Outline) :
    ∃ b, commaList (as ++ [a]) = b ++ a := by
  cases as with
  | nil => exact ⟨[], by simp [commaList]⟩
  | cons x as => exact ⟨x ++ (as.flatMap fun item => .token "," :: item) ++ [Mark.token ","], by
      simp [commaList]⟩

/-- Every node but a whole file has its span around its outline. -/
theorem ofNode_framed (hn : ∀ u, n ≠ .unit u) : ∃ m, ofNode n = framed n.span m := by
  cases n with
  | unit u => exact absurd rfl (hn u)
  | type t => exact ofType_framed t
  | modifier d => cases d <;> exact ⟨_, rfl⟩
  | decl d => exact ⟨_, by rw [ofNode, ofDecl, ofMember]; rfl⟩
  | stmt t => cases t <;> exact ⟨_, by rw [ofNode, ofStmt]; rfl⟩
  | expr e => cases e <;> exact ⟨_, by rw [ofNode, ofExpr]; rfl⟩
  | _ => exact ⟨_, rfl⟩

/-- A node can be read from anywhere in the gap in front of it. -/
theorem reads_of_inGap {x : Nat} (h : Reads s (framed span m) o o') (hx : s.InGap x span.start) :
    Reads s (framed span m) x o' := by
  obtain ⟨hb, hs, hm, he⟩ := reads_framed.1 h
  refine reads_framed.2 ⟨Source.boundary_of_inGap_left hx, ?_, hm, he⟩
  rw [← Source.skipSpace_eq_of_inGap hx, hs, Source.skipSpace_skipSpace false hb]

/-! ## Outlines of nodes inside nodes -/

def Found (s : Source) (m : Outline) : Prop := ∃ o o', Reads s m o o'

@[grind →] theorem found_append {a b : Outline} (h : Found s (a ++ b)) : Found s a ∧ Found s b := by
  obtain ⟨o, o', h⟩ := h
  obtain ⟨x, ha, hb⟩ := reads_append.1 h
  exact ⟨⟨o, x, ha⟩, ⟨x, o', hb⟩⟩

@[grind →] theorem found_framed (h : Found s (framed span m)) :
    Found s m := by
  obtain ⟨o, o', h⟩ := h
  exact ⟨_, _, (reads_framed.1 h).2.2.1⟩

@[grind →] theorem found_of_mem_flatMap {α : Type} {f : α → Outline} {as : List α} {a : α}
    (h : Found s (as.flatMap f)) (ha : a ∈ as) : Found s (f a) := by
  obtain ⟨b, c, rfl⟩ := List.append_of_mem ha
  rw [List.flatMap_append, List.flatMap_cons] at h
  exact (found_append (found_append h).2).1

theorem commaList_singleton (a : Outline) : commaList [a] = a := by simp [commaList]

@[grind →] theorem found_of_mem_commaList {α : Type} {f : α → Outline} {as : List α} {a : α}
    (h : Found s (commaList (as.map f))) (ha : a ∈ as) : Found s (f a) := by
  cases as with
  | nil => cases ha
  | cons b bs =>
    obtain ⟨hb, hbs⟩ := found_append h
    rcases List.mem_cons.1 ha with rfl | ha
    · exact hb
    · have hf := found_of_mem_flatMap hbs (List.mem_map_of_mem ha)
      exact (found_append (a := [.token ","]) hf).2

theorem ofTypes_eq (ts : List Ty) : ofTypes ts = ts.map ofType := by
  induction ts with
  | nil => rfl
  | cons t ts ih => rw [ofTypes, ih, List.map_cons]

theorem ofExprs_eq (es : List Expr) : ofExprs es = es.map ofExpr := by
  induction es with
  | nil => rfl
  | cons e es ih => rw [ofExprs, ih, List.map_cons]

theorem ofStmts_eq (ss : List Stmt) : ofStmts ss = ss.flatMap ofStmt := by
  induction ss with
  | nil => rfl
  | cons t ss ih => rw [ofStmts, ih, List.flatMap_cons]

theorem ofMembers_eq (ms : List Member) : ofMembers ms = ms.flatMap ofMember := by
  induction ms with
  | nil => rfl
  | cons m ms ih => rw [ofMembers, ih, List.flatMap_cons]

@[grind →] theorem found_of_mem_ofClause {word : String} {ts : List Ty} {t : Ty}
    (h : Found s (ofClause word ts)) (ht : t ∈ ts) : Found s (ofType t) := by
  rw [ofClause, if_neg (by rw [List.isEmpty_iff]; exact List.ne_nil_of_mem ht)] at h
  exact found_of_mem_commaList (found_append h).2 ht

@[grind →] theorem found_of_mem_ofTypeParameters {ps : List TypeParameter} {p : TypeParameter}
    (h : Found s (ofTypeParameters ps)) (hp : p ∈ ps) : Found s (ofTypeParameter p) := by
  rw [ofTypeParameters, if_neg (by rw [List.isEmpty_iff]; exact List.ne_nil_of_mem hp)] at h
  exact found_of_mem_commaList (found_append (found_append h).1).2 hp

theorem found_child_type {t : Ty} (h : Found s (ofType t)) (hc : c ∈ Node.childrenOfType t) :
    Found s (ofNode c) := by
  cases t <;> simp only [ofType, ofTypes_eq] at h <;>
    simp only [Node.childrenOfType, List.mem_cons, List.mem_map, List.not_mem_nil, or_false] at hc
  all_goals grind [ofNode, ofType]

theorem found_child_expr {e : Expr} (h : Found s (ofExpr e)) (hc : c ∈ Node.childrenOfExpr e) :
    Found s (ofNode c) := by
  cases e <;> simp only [ofExpr, ofExprs_eq, ofArgumentList, ofItems, ofLengths] at h <;>
    simp only [Node.childrenOfExpr, List.mem_cons, List.mem_map, List.not_mem_nil, or_false] at hc
  all_goals grind [ofNode, Node.ofName, ofExpr, ofItems, ofExprs_eq]

theorem found_child_variables {v : Variables} (h : Found s (ofVariables v))
    (hc : c ∈ Node.ofVariables v) : Found s (ofNode c) := by
  simp only [ofVariables, ofModifiers] at h
  simp only [Node.ofVariables, List.mem_append, List.mem_cons, List.mem_map] at hc
  grind [ofNode]

theorem found_child_stmt {t : Stmt} (h : Found s (ofStmt t)) (hc : c ∈ Node.childrenOfStmt t) :
    Found s (ofNode c) := by
  cases t with
  | locals span vars =>
    rw [ofStmt] at h
    exact found_child_variables (found_append (found_framed h)).1 hc
  | forLoop span init condition? updates body =>
    simp only [ofStmt, ofExprs_eq] at h
    simp only [Node.childrenOfStmt, List.mem_append, List.mem_map, List.mem_singleton] at hc
    cases init with
    | exprs es =>
      simp only [ofForInit, ofExprs_eq, Node.ofForInit, List.mem_map] at h hc
      grind [ofNode]
    | locals span vars =>
      simp only [ofForInit, commaList_singleton, Node.ofForInit, List.mem_singleton] at h hc
      grind [ofNode]
  | empty span => cases hc
  | _ =>
    simp only [ofStmt, ofCondition, ofJump, ofStmts_eq] at h
    simp only [Node.childrenOfStmt, List.mem_cons, List.mem_map, List.not_mem_nil, or_false] at hc
    grind [ofNode, Node.ofName, ofExpr]

theorem found_child_head {d : TypeHead} (h : Found s (ofHead d)) (hc : c ∈ Node.childrenOfHead d) :
    Found s (ofNode c) := by
  simp only [ofHead, ofModifiers] at h
  simp only [Node.childrenOfHead, List.mem_append, List.mem_cons, List.mem_map] at hc
  grind [ofNode, Node.ofName, ofExpr]

/-- The outline of a node holds those of its children. -/
theorem found_child (h : Found s (ofNode n)) (hc : c ∈ n.children) :
    Found s (ofNode c) := by
  cases n with
  | unit u =>
    simp only [ofNode, ofUnit] at h
    simp only [Node.children, List.mem_append, List.mem_map] at hc
    grind [ofNode]
  | decl d =>
    simp only [ofNode, ofDecl, ofMember, ofMembers_eq] at h
    simp only [Node.children, List.mem_append, List.mem_map] at hc
    rcases hc with hc | ⟨m, hm, rfl⟩
    · exact found_child_head (found_append (found_append (found_framed h)).1).1 hc
    · cases m <;> grind [ofNode, Node.ofMember, ofMember, ofDecl]
  | field f => exact found_child_variables (found_append (found_framed h)).1 hc
  | method m =>
    simp only [ofNode, ofMethod, ofModifiers, ofParameterList] at h
    simp only [Node.children, List.mem_append, List.mem_cons, List.mem_map] at hc
    grind [ofNode, Node.ofName, ofExpr, ofMethodBody, Node.ofBlock, ofBlock]
  | parameter p =>
    simp only [ofNode, ofParameter, ofModifiers] at h
    simp only [Node.children, List.mem_append, List.mem_cons, List.mem_map, List.not_mem_nil,
      or_false] at hc
    grind [ofNode, Node.ofName, ofExpr]
  | fragment f =>
    simp only [ofNode, ofFragment] at h
    simp only [Node.children, List.mem_cons, List.mem_map] at hc
    grind [ofNode, Node.ofName, ofExpr, ofInit]
  | type t => exact found_child_type h hc
  | typeParameter p =>
    obtain rfl := List.mem_singleton.1 hc
    rw [ofNode, ofTypeParameter] at h
    rw [Node.ofName, ofNode, ofExpr]
    exact found_framed h
  | stmt t => exact found_child_stmt h hc
  | expr e => exact found_child_expr h hc
  | locals span vars => exact found_child_variables (found_framed h) hc
  | package p | importing i | modifier m => cases hc

theorem length_descendants_lt (hc : c ∈ n.children) :
    c.descendants.length < n.descendants.length := by
  obtain ⟨as, bs, h⟩ := List.append_of_mem hc
  rw [Node.descendants_eq n, h, List.flatMap_append, List.flatMap_cons]
  simp only [List.length_cons, List.length_append]
  omega

/-- What passes from nodes to their children passes to all nodes below. -/
theorem of_mem_descendants {P : Node → Prop} (hP : ∀ n c, P n → c ∈ n.children → P c) (n : Node)
    (hn : P n) : ∀ d ∈ n.descendants, P d := by
  intro d hd
  rw [Node.descendants_eq, List.mem_cons, List.mem_flatMap] at hd
  rcases hd with rfl | ⟨c, hc, hd⟩
  · exact hn
  · have := length_descendants_lt hc
    exact of_mem_descendants hP c (hP n c hn hc) d hd
termination_by n.descendants.length

/-- A file is no part of another node. -/
theorem ne_unit_of_mem_children (hc : c ∈ n.children) (u : CompilationUnit) :
    c ≠ .unit u := by
  rintro rfl
  cases n with
  | type t => cases t <;> simp [Node.children, Node.childrenOfType] at hc
  | expr e => cases e <;> simp [Node.children, Node.childrenOfExpr, Node.ofName] at hc
  | stmt t =>
    cases t with
    | forLoop span init _ _ _ =>
      cases init <;> simp [Node.children, Node.childrenOfStmt, Node.ofForInit] at hc
    | _ => simp [Node.children, Node.childrenOfStmt, Node.ofVariables, Node.ofName] at hc
  | decl d =>
    simp only [Node.children, Node.childrenOfHead, Node.ofName, List.mem_append, List.mem_map] at hc
    rcases hc with hc | ⟨m, -, hm⟩
    · simp at hc
    · cases m <;> cases hm
  | _ => simp [Node.children, Node.ofVariables, Node.ofName, Node.ofBlock] at hc

theorem eq_or_ne_unit_of_mem_descendants {d : Node} (hd : d ∈ n.descendants) :
    d = n ∨ ∀ u, d ≠ .unit u := by
  rw [Node.descendants_eq, List.mem_cons, List.mem_flatMap] at hd
  rcases hd with hd | ⟨c, hc, hd⟩
  · exact .inl hd
  · exact .inr (of_mem_descendants (P := fun n => ∀ u, n ≠ .unit u)
      (fun _ _ _ => ne_unit_of_mem_children) c (ne_unit_of_mem_children hc) d hd)

theorem found_of_mem_descendants {d : Node} (h : Found s (ofNode n)) (hd : d ∈ n.descendants) :
    Found s (ofNode d) :=
  of_mem_descendants (fun _ _ => found_child) n h d hd

end Outline

/-- Whether a tree is what stands in a text: its tokens, in order, with only space and comments
around them, and every span from the first token of its node to the last. A tree without tokens
has the empty span at the end of the text. -/
def Faithful (s : Source) (u : CompilationUnit) : Prop :=
  ∃ stop ∈ (Outline.ofUnit u).follow s 0, s.skipSpace false stop = s.size ∧
    u.span = ⟨s.skipSpace false 0, max (s.skipSpace false 0) stop⟩

instance (s : Source) (u : CompilationUnit) : Decidable (Faithful s u) :=
  inferInstanceAs (Decidable (∃ stop ∈ (Outline.ofUnit u).follow s 0, _ ∧ _))

def sampleSource : Source :=
  Source.ofString "A.java" ("import p.B;\n// A list.\nclass A extends B \x7b\n  int[] x = \x7b 1 \x7d; /* y */\n"
    ++ "  @T void f(int n) throws E \x7b\n    for (;;) \x7b break; \x7d\n  \x7d\n\x7d\n")

def sampleField : Field where
  span := ⟨45, 61⟩
  vars := ⟨[], .array ⟨45, 50⟩ (.primitive ⟨45, 48⟩ .int) 1, [⟨⟨51, 60⟩, ⟨⟨51, 52⟩, "x"⟩, 0,
    some (.arrayInit ⟨55, 60⟩ [.literal ⟨57, 58⟩ .integer "1"])⟩]⟩

def sampleMethod : Method where
  span := ⟨72, 127⟩
  modifiers := [.tag ⟨72, 74⟩ ⟨⟨73, 74⟩, [⟨⟨73, 74⟩, "T"⟩]⟩]
  returnType? := some (.primitive ⟨75, 79⟩ .void)
  name := ⟨⟨80, 81⟩, "f"⟩
  parameters := [⟨⟨82, 87⟩, [], .primitive ⟨82, 85⟩ .int, ⟨⟨86, 87⟩, "n"⟩, 0⟩]
  thrown := [.simple ⟨⟨96, 97⟩, ⟨⟨96, 97⟩, [⟨⟨96, 97⟩, "E"⟩]⟩⟩]
  body? := some ⟨⟨98, 127⟩, [.forLoop ⟨104, 123⟩ (.exprs []) none []
    (.block ⟨113, 123⟩ [.leave ⟨115, 121⟩ none])]⟩

def sampleHead : TypeHead where
  span := ⟨23, 129⟩
  modifiers := []
  isInterface := false
  name := ⟨⟨29, 30⟩, "A"⟩
  typeParameters := []
  extended := [.simple ⟨⟨39, 40⟩, ⟨⟨39, 40⟩, [⟨⟨39, 40⟩, "B"⟩]⟩⟩]
  implemented := []
  bodySpan := ⟨41, 129⟩

def sampleUnit : CompilationUnit where
  span := ⟨0, 129⟩
  package? := none
  imports := [⟨⟨0, 11⟩, false, ⟨⟨7, 10⟩, [⟨⟨7, 8⟩, "p"⟩, ⟨⟨9, 10⟩, "B"⟩]⟩, false⟩]
  types := [⟨sampleHead, [.field sampleField, .method sampleMethod]⟩]

theorem sampleMethod_mem : Node.method sampleMethod ∈ (Node.unit sampleUnit).descendants :=
  List.mem_of_getElem? (i := 12) rfl

theorem sample_faithful : Faithful sampleSource sampleUnit := by decide +kernel

end Transcribe
