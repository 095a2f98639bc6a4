/-
  Transcribe.Proofs.Total.Build — every derivation is made into syntax.

  What the pieces of a node can be follows from its rule: each rule gives one kind of piece, and the
  body of a rule says in which order the pieces of its parts stand. In that order they always fit,
  so no node of a derivation is without a piece.

  `Leaves e ps rest` says that the pieces of what `e` matches stand at the head of `ps`, before
  `rest`; it follows the expression, so a rule's body is taken apart piece by piece. `Builds` is the
  goal for one rule. Tokens of a closed set of words are made by looking their text up; that it is
  found there rests on what the token rules spell (`Rule.HasWord`).
  - `Piece.IsOf`: what piece a rule gives.
  - `Leaves`: which pieces the parts of an expression have.
  - `builds_of_leaves`: the pieces of the parts make the piece of the node, rule by rule.
  - `builds_of_spells`: the text of a token makes its piece.
-/

import Transcribe.Proofs.Origin

namespace Transcribe.Java

open Grammar
open Text (Span Source)

variable {α : Type} {r : Rule} {w : List Char}

/-! ## What pieces stand in an expression -/

abbrev Piece.IsOf (p : Piece) (r : Rule) : Prop :=
  match r with
  | .identifier => ∃ n, p = .name n
  | .kwClass | .kwInterface | .importStatic | .importOnDemand | .endOfInput => p = .mark r
  | .compilationUnit => ∃ u, p = .unit u
  | .packageDeclaration => ∃ k, p = .package k
  | .importDeclaration => ∃ i, p = .importing i
  | .qualifiedName => ∃ n, p = .path n
  | .modifier | .tag => ∃ m, p = .modifier m
  | .primitiveType | .voidType | .javaType | .classType => ∃ t, p = .type t
  | .typeArguments | .extendsClause | .implementsClause | .throwsClause => ∃ ts, p = .types r ts
  | .dims => ∃ n, p = .dims n
  | .typeDeclaration => ∃ h body, p = .member (.type h body)
  | .methodDeclaration | .fieldDeclaration => ∃ m, p = .member m
  | .typeParameters => ∃ ps, p = .typeParameters ps
  | .typeParameter => ∃ q, p = .typeParameter q
  | .classBody => ∃ s ms, p = .members s ms
  | .formalParameters => ∃ ps, p = .parameters ps
  | .formalParameter => ∃ q, p = .parameter q
  | .variableDeclarator => ∃ f, p = .fragment f
  | .localsDeclaration => ∃ s v, p = .declared s v
  | .block => ∃ s ss, p = .stmt (.block s ss)
  | .localsStatement | .ifStatement | .whileStatement | .doStatement | .forEachStatement
  | .forStatement | .returnStatement | .breakStatement | .continueStatement | .throwStatement
  | .emptyStatement | .expressionStatement => ∃ s, p = .stmt s
  | .forInit => ∃ i, p = .forInit i
  | .forUpdate => ∃ es, p = .forUpdate es
  | .arrayInitializer => ∃ s es, p = .expr (.arrayInit s es)
  | .expression | .assignment | .conditionalExpression | .binaryExpression | .unaryExpression
  | .castExpression | .postfixExpression | .thisExpression | .parenthesized | .unqualifiedCall
  | .classInstanceCreation | .arrayCreation | .floatLiteral | .integerLiteral | .charLiteral
  | .stringLiteral | .booleanLiteral | .nullLiteral => ∃ e, p = .expr e
  | .assignmentOperator => ∃ op, p = .assignOp op
  | .infixOperator op => p = .infixOp op
  | .prefixOperator => ∃ op, p = .prefixOp op
  | .instanceofSuffix => ∃ s t, p = .test s t
  | .postfixOperator | .methodSelector | .fieldSelector | .indexSelector => ∃ s, p = .selector s
  | .arguments | .tagArguments => ∃ es, p = .arguments es
  | .dimExpr => ∃ e, p = .length e
  | _ => False

/-- The pieces of what an expression matches stand before `rest`. -/
def Leaves : Peg Rule → List Piece → List Piece → Prop
  | .rule r, ps, rest => if Piece.isPlainWord r then ps = rest else ∃ p, ps = p :: rest ∧ p.IsOf r
  | .seq x y, ps, rest => ∃ mid, Leaves x ps mid ∧ Leaves y mid rest
  | .alt x y, ps, rest => Leaves x ps rest ∨ Leaves y ps rest
  | .opt x, ps, rest => ps = rest ∨ Leaves x ps rest
  | .many x, ps, rest => ∃ pss : List (List Piece), ps = pss.flatten ++ rest ∧
      ∀ qs ∈ pss, Leaves x qs []
  | _, ps, rest => ps = rest

def Only (P : Piece → Prop) : Peg Rule → Prop
  | .rule r => ∀ p, p.IsOf r → P p
  | .seq x y | .alt x y => Only P x ∧ Only P y
  | .opt x | .many x => Only P x
  | _ => True

variable {ps qs rest : List Piece}

theorem Leaves.only {P : Piece → Prop} {e : Peg Rule} (h : Leaves e ps rest) (he : Only P e) :
    ∃ qs, ps = qs ++ rest ∧ ∀ p ∈ qs, P p := by
  induction e generalizing ps rest with
  | word | words | one | startOfText | endOfText | ahead | notAhead => exact ⟨[], h, by simp⟩
  | rule r =>
    rw [Leaves] at h
    split at h
    · exact ⟨[], h, by simp⟩
    · obtain ⟨p, rfl, hp⟩ := h
      exact ⟨[p], rfl, by simpa using he p hp⟩
  | seq x y ihx ihy =>
    obtain ⟨mid, hx, hy⟩ := h
    obtain ⟨qs, rfl, hqs⟩ := ihx hx he.1
    obtain ⟨rs, rfl, hrs⟩ := ihy hy he.2
    refine ⟨qs ++ rs, (List.append_assoc qs rs rest).symm, ?_⟩
    exact List.forall_mem_append.2 ⟨hqs, hrs⟩
  | alt x y ihx ihy =>
    rcases h with h | h
    · exact ihx h he.1
    · exact ihy h he.2
  | opt x ih =>
    rcases h with rfl | h
    · exact ⟨[], rfl, by simp⟩
    · exact ih h he
  | many x ih =>
    obtain ⟨pss, rfl, hpss⟩ := h
    refine ⟨pss.flatten, rfl, fun p hp => ?_⟩
    obtain ⟨qs, hqs, hp⟩ := List.mem_flatten.1 hp
    obtain ⟨rs, rfl, hrs⟩ := ih (hpss qs hqs) he
    exact hrs p (by simpa using hp)

/-- Pieces that can be read one by one can be read together. -/
theorem exists_mapM {f : Piece → Option α} (h : ∀ p ∈ ps, ∃ a, f p = some a) :
    ∃ as, ps.mapM f = some as := by
  induction ps with
  | nil => exact ⟨[], rfl⟩
  | cons p ps ih =>
    obtain ⟨⟨a, ha⟩, hps⟩ := List.forall_mem_cons.1 h
    obtain ⟨as, has⟩ := ih hps
    exact ⟨a :: as, by simp [List.mapM_cons, ha, has]⟩

theorem Leaves.exists_mapM {f : Piece → Option α} {e : Peg Rule} (h : Leaves e ps [])
    (he : Only (fun p => ∃ a, f p = some a) e) : ∃ as, ps.mapM f = some as := by
  obtain ⟨qs, rfl, hqs⟩ := h.only he
  exact Java.exists_mapM (by simpa using hqs)

/-- Repetitions of an expression that leaves one piece of one kind. -/
theorem Leaves.exists_map {f : α → Piece} {x : Peg Rule}
    (hx : ∀ {qs}, Leaves x qs [] → ∃ a, qs = [f a]) (h : Leaves (.many x) ps rest) :
    ∃ as : List α, ps = as.map f ++ rest := by
  obtain ⟨pss, rfl, hpss⟩ := h
  induction pss with
  | nil => exact ⟨[], rfl⟩
  | cons qs pss ih =>
    obtain ⟨hqs, htail⟩ := List.forall_mem_cons.1 hpss
    obtain ⟨as, has⟩ := ih htail
    obtain ⟨a, rfl⟩ := hx hqs
    exact ⟨a :: as, by simp [has]⟩

/-! ## Shared expressions -/

theorem leaves_statement (h : Leaves Rule.statement ps rest) : ∃ s, ps = .stmt s :: rest := by
  rcases h with ⟨_, rfl, span, ss, rfl⟩ | h | h | h | h | h | h | h | h | h | h | h
  · exact ⟨_, rfl⟩
  all_goals
    obtain ⟨_, rfl, s, rfl⟩ := h
    exact ⟨s, rfl⟩

theorem leaves_variableInitializer (h : Leaves Rule.variableInitializer ps rest) :
    ∃ e, ps = .expr e :: rest := by
  rcases h with ⟨_, rfl, span, es, rfl⟩ | ⟨_, rfl, e, rfl⟩
  · exact ⟨_, rfl⟩
  · exact ⟨e, rfl⟩

theorem leaves_modifierList (h : Leaves Rule.modifierList ps rest) :
    ∃ ms : List Modifier, ps = ms.map .modifier ++ rest := by
  refine h.exists_map fun hqs => ?_
  rcases hqs with ⟨_, rfl, m, rfl⟩ | ⟨_, rfl, m, rfl⟩
  · exact ⟨m, rfl⟩
  · exact ⟨m, rfl⟩

/-- Pieces of one kind are taken off the front, up to the first of another kind. -/
theorem take_append {f : α → Piece} {take : List Piece → List α × List Piece}
    (hcons : ∀ a ps, take (f a :: ps) = (a :: (take ps).1, (take ps).2)) (as : List α)
    (hrest : take rest = ([], rest)) : take (as.map f ++ rest) = (as, rest) := by
  induction as with
  | nil => exact hrest
  | cons a as ih => rw [List.map_cons, List.cons_append, hcons, ih]

theorem takeModifiers_append (ms : List Modifier) (h : Piece.takeModifiers rest = ([], rest)) :
    Piece.takeModifiers (ms.map .modifier ++ rest) = (ms, rest) :=
  take_append (fun _ _ => rfl) ms h

theorem leaves_selector (h : Leaves Rule.selector ps rest) : ∃ sel, ps = .selector sel :: rest := by
  rcases h with ⟨_, rfl, sel, rfl⟩ | ⟨_, rfl, sel, rfl⟩ | ⟨_, rfl, sel, rfl⟩
  all_goals exact ⟨sel, rfl⟩

theorem leaves_primary (h : Leaves Rule.primary ps rest) :
    ∃ p e, ps = p :: rest ∧ p.expr? = some e := by
  rcases h with (h | h | h | h | h | h) | h | h | h | h | h | ⟨_, rfl, n, rfl⟩
  case inr.inr.inr.inr.inr.inr => exact ⟨_, _, rfl, rfl⟩
  all_goals
    obtain ⟨_, rfl, e, rfl⟩ := h
    exact ⟨_, e, rfl, rfl⟩

theorem leaves_alts {x : Peg Rule} {ys : List (Peg Rule)} (h : Leaves (Peg.alts x ys) ps rest) :
    ∃ z ∈ x :: ys, Leaves z ps rest := by
  induction ys generalizing x with
  | nil => exact ⟨x, List.mem_cons_self, h⟩
  | cons y ys ih =>
    rcases h with h | h
    · exact ⟨x, List.mem_cons_self, h⟩
    · obtain ⟨z, hz, h⟩ := ih h
      exact ⟨z, List.mem_cons_of_mem _ hz, h⟩

theorem leaves_infixOperators (h : Leaves Rule.infixOperators ps rest) :
    ∃ op, ps = .infixOp op :: rest := by
  obtain ⟨z, hz, h⟩ := leaves_alts h
  have hrule : ∃ op, z = .rule (.infixOperator op) := by
    rcases List.mem_cons.1 hz with rfl | hz
    · exact ⟨_, rfl⟩
    · obtain ⟨op, -, rfl⟩ := List.mem_map.1 hz
      exact ⟨op, rfl⟩
  obtain ⟨op, rfl⟩ := hrule
  obtain ⟨_, rfl, rfl⟩ := h
  exact ⟨op, rfl⟩

theorem leaves_baseType (h : Leaves (.alt (.rule .primitiveType) (.rule .classType)) ps rest) :
    ∃ t, ps = .type t :: rest := by
  rcases h with ⟨_, rfl, t, rfl⟩ | ⟨_, rfl, t, rfl⟩
  · exact ⟨t, rfl⟩
  · exact ⟨t, rfl⟩

theorem leaves_typeKind (h : Leaves (.alt (.rule .kwClass) (.rule .kwInterface)) ps rest) :
    ∃ k, ps = .mark k :: rest := by
  rcases h with ⟨_, rfl, rfl⟩ | ⟨_, rfl, rfl⟩
  · exact ⟨_, rfl⟩
  · exact ⟨_, rfl⟩

theorem leaves_methodHeader (h : Leaves Rule.methodHeader ps rest) :
    ∃ t? n, Piece.takeType ps = (t?, .name n :: rest) ∧ Piece.takeModifiers ps = ([], ps) := by
  rcases h with ⟨_, ⟨_, rfl, t, rfl⟩ | ⟨_, rfl, t, rfl⟩, _, ⟨_, rfl, n, rfl⟩, rfl⟩ |
    ⟨_, ⟨_, rfl, n, rfl⟩, rfl⟩
  · exact ⟨some t, n, rfl, rfl⟩
  · exact ⟨some t, n, rfl, rfl⟩
  · exact ⟨none, n, rfl, rfl⟩

/-! ## Rules -/

section Rules

variable (span : Span) (text : List Char)

def Builds (r : Rule) (ps : List Piece) : Prop :=
  ∃ p, Piece.assemble? r span text ps = some p ∧ p.IsOf r

/-- A rule whose piece is made from what its pieces are read as. -/
theorem builds_map {read : Option α} {a : α} {make : α → Piece} (hread : read = some a)
    (hr : Piece.assemble? r span text ps = read.map make) (hmake : (make a).IsOf r) :
    Builds span text r ps :=
  ⟨make a, by rw [hr, hread]; rfl, hmake⟩

/-- A rule that reads all its pieces alike. -/
theorem builds_list {f : Piece → Option α} {make : List α → Piece}
    (he : Only (fun p => ∃ a, f p = some a) r.body)
    (hr : Piece.assemble? r span text ps = (ps.mapM f).map make) (hmake : ∀ as, (make as).IsOf r)
    (h : Leaves r.body ps []) : Builds span text r ps := by
  obtain ⟨as, has⟩ := h.exists_mapM he
  exact builds_map span text has hr (hmake as)

theorem exists_declared? {mid mid' mid'' : List Piece} (hmods : Leaves Rule.modifierList ps mid)
    (htype : Leaves (.rule .javaType) mid mid')
    (hfirst : Leaves (.rule .variableDeclarator) mid' mid'')
    (hmore : Leaves (.many (.seq (Peg.text ",") (.rule .variableDeclarator))) mid'' []) :
    ∃ v, Piece.declared? ps = some v := by
  obtain ⟨ms, rfl⟩ := leaves_modifierList hmods
  obtain ⟨_, rfl, t, rfl⟩ := htype
  obtain ⟨_, rfl, f, rfl⟩ := hfirst
  have hread : ∀ p : Piece, p.IsOf .variableDeclarator → ∃ f, p.fragment? = some f := by
    rintro _ ⟨f, rfl⟩
    exact ⟨f, rfl⟩
  obtain ⟨fs, hfs⟩ := hmore.exists_mapM (And.intro trivial hread)
  have htake : Piece.takeModifiers (ms.map .modifier ++ .type t :: .fragment f :: mid'')
      = (ms, .type t :: .fragment f :: mid'') := takeModifiers_append ms rfl
  exact ⟨⟨ms, t, f :: fs⟩, by
    simp [Piece.declared?, htake, List.mapM_cons, Piece.fragment?, hfs]⟩

theorem builds_typeDeclaration (h : Leaves (Rule.body .typeDeclaration) ps []) :
    Builds span text .typeDeclaration ps := by
  obtain ⟨_, hmods, _, hkind, _, ⟨_, rfl, n, rfl⟩, _, hparams, _, hext, _, himpl,
    _, rfl, bodySpan, body, rfl⟩ := h
  obtain ⟨ms, rfl⟩ := leaves_modifierList hmods
  obtain ⟨k, rfl⟩ := leaves_typeKind hkind
  unfold Builds Piece.assemble? Piece.typeMember?
  rw [takeModifiers_append ms rfl]
  rcases hparams with rfl | ⟨_, rfl, ps, rfl⟩ <;> rcases hext with rfl | ⟨_, rfl, ts, rfl⟩ <;>
    rcases himpl with rfl | ⟨_, rfl, us, rfl⟩ <;> exact ⟨_, rfl, _, _, rfl⟩

theorem builds_methodDeclaration (h : Leaves (Rule.body .methodDeclaration) ps []) :
    Builds span text .methodDeclaration ps := by
  obtain ⟨_, hmods, _, hheader, _, ⟨_, rfl, params, rfl⟩, _, hthrown, hbody⟩ := h
  obtain ⟨ms, rfl⟩ := leaves_modifierList hmods
  obtain ⟨t?, n, hhead, hfirst⟩ := leaves_methodHeader hheader
  unfold Builds Piece.assemble? Piece.method?
  rw [takeModifiers_append ms hfirst]
  simp only [hhead]
  rcases hthrown with rfl | ⟨_, rfl, ts, rfl⟩ <;>
    rcases hbody with ⟨_, rfl, bodySpan, body, rfl⟩ | rfl <;> exact ⟨_, rfl, _, rfl⟩

theorem exists_unit? (k? : Option Package) (is : List Import) {ts : List Piece}
    (hts : ∀ p ∈ ts, ∃ h body, p = .member (.type h body)) :
    ∃ u, Piece.unit? span (k?.toList.map .package
      ++ (is.map .importing ++ (ts ++ [Piece.mark .endOfInput]))) = some u := by
  have hpackage : Piece.takePackage (k?.toList.map .package
      ++ (is.map .importing ++ (ts ++ [Piece.mark .endOfInput])))
      = (k?, is.map .importing ++ (ts ++ [Piece.mark .endOfInput])) := by
    cases k? with
    | some k => rfl
    | none =>
      cases is with
      | cons i is => rfl
      | nil =>
        cases ts with
        | nil => rfl
        | cons t ts =>
          obtain ⟨h, body, rfl⟩ := hts t List.mem_cons_self
          rfl
  have himports : Piece.takeImports (is.map .importing ++ (ts ++ [Piece.mark .endOfInput]))
      = (is, ts ++ [Piece.mark .endOfInput]) := by
    refine take_append (fun _ _ => rfl) is ?_
    cases ts with
    | nil => rfl
    | cons t ts =>
      obtain ⟨h, body, rfl⟩ := hts t List.mem_cons_self
      rfl
  obtain ⟨ds, hds⟩ : ∃ ds, ts.mapM Piece.typeDecl? = some ds := by
    refine exists_mapM fun p hp => ?_
    obtain ⟨h, body, rfl⟩ := hts p hp
    exact ⟨_, rfl⟩
  exact ⟨⟨span, k?, is, ds⟩, by simp [Piece.unit?, hpackage, himports, hds]⟩

theorem builds_compilationUnit (h : Leaves (Rule.body .compilationUnit) ps []) :
    Builds span text .compilationUnit ps := by
  obtain ⟨_, rfl, _, hpackage, _, himports, _, htypes, _, rfl, rfl⟩ := h
  obtain ⟨is, rfl⟩ := himports.exists_map (f := .importing) fun hqs => by
    obtain ⟨_, rfl, i, rfl⟩ := hqs
    exact ⟨i, rfl⟩
  obtain ⟨ts, rfl, hts⟩ := htypes.only (P := fun p => ∃ h body, p = .member (.type h body))
    fun _ hp => hp
  have hunit : ∀ k? : Option Package, _ := fun k? => exists_unit? span k? is hts
  rcases hpackage with rfl | ⟨_, rfl, k, rfl⟩
  · obtain ⟨u, hu⟩ := hunit none
    exact builds_map span text hu rfl ⟨u, rfl⟩
  · obtain ⟨u, hu⟩ := hunit (some k)
    exact builds_map span text hu rfl ⟨u, rfl⟩

/-- Operators with their operands, and tests. -/
theorem exists_links? {x : Peg Rule} (hx : x = .alt (.rule .instanceofSuffix)
    (.seq Rule.infixOperators (.rule .unaryExpression))) (h : Leaves (.many x) ps []) :
    ∃ links, Piece.links? ps = some links := by
  obtain ⟨pss, rfl, hpss⟩ := h
  induction pss with
  | nil => exact ⟨[], rfl⟩
  | cons qs pss ih =>
    obtain ⟨hqs, htail⟩ := List.forall_mem_cons.1 hpss
    obtain ⟨links, hlinks⟩ := ih htail
    subst hx
    rcases hqs with ⟨_, rfl, s, t, rfl⟩ | ⟨_, hop, _, rfl, e, rfl⟩
    · exact ⟨.test s t :: links, by simpa [Piece.links?] using hlinks⟩
    · obtain ⟨op, rfl⟩ := leaves_infixOperators hop
      exact ⟨.op op e :: links, by simpa [Piece.links?] using hlinks⟩

theorem builds_postfixExpression (h : Leaves (Rule.body .postfixExpression) ps []) :
    Builds span text .postfixExpression ps := by
  obtain ⟨_, hprimary, _, hselectors, hsteps⟩ := h
  obtain ⟨p, e, rfl, hp⟩ := leaves_primary hprimary
  obtain ⟨sels, rfl⟩ := hselectors.exists_map (f := .selector) leaves_selector
  obtain ⟨steps, rfl⟩ := hsteps.exists_map (f := .selector) fun hqs => by
    obtain ⟨_, rfl, sel, rfl⟩ := hqs
    exact ⟨sel, rfl⟩
  obtain ⟨all, hall⟩ : ∃ all, (sels.map Piece.selector ++ (steps.map Piece.selector ++ [])).mapM
      Piece.selector? = some all := by
    refine exists_mapM fun q hq => ?_
    simp only [List.append_nil, List.mem_append, List.mem_map] at hq
    rcases hq with ⟨sel, -, rfl⟩ | ⟨sel, -, rfl⟩
    · exact ⟨sel, rfl⟩
    · exact ⟨sel, rfl⟩
  refine ⟨.expr (all.foldl Selector.apply e), ?_, _, rfl⟩
  unfold Piece.assemble?
  simp only [hp, hall]

theorem builds_arrayCreation (h : Leaves (Rule.body .arrayCreation) ps []) :
    Builds span text .arrayCreation ps := by
  obtain ⟨_, rfl, _, htype, hsizes⟩ := h
  obtain ⟨t, rfl⟩ := leaves_baseType htype
  rcases hsizes with ⟨_, ⟨_, ⟨_, rfl, e, rfl⟩, hlengths⟩, hdims⟩ |
    ⟨_, ⟨_, rfl, n, rfl⟩, _, rfl, s, es, rfl⟩
  · obtain ⟨es, rfl⟩ := hlengths.exists_map (f := .length) fun hqs => by
      obtain ⟨_, rfl, e, rfl⟩ := hqs
      exact ⟨e, rfl⟩
    have htake : ∀ rest, Piece.takeLengths rest = ([], rest) →
        Piece.takeLengths (.length e :: (es.map .length ++ rest)) = (e :: es, rest) :=
      fun _ => take_append (fun _ _ => rfl) (e :: es)
    unfold Builds Piece.assemble? Piece.newArray?
    rcases hdims with rfl | ⟨_, rfl, n, rfl⟩
    · simp only [htake [] rfl]
      exact ⟨_, rfl, _, rfl⟩
    · simp only [htake [.dims n] rfl]
      exact ⟨_, rfl, _, rfl⟩
  · exact ⟨_, rfl, _, rfl⟩

/-- The pieces of the parts of a node make its piece. -/
theorem builds_of_leaves (hr : r.kind = .tree) (h : Leaves r.body ps []) :
    Builds span text r ps := by
  have hexpr : ∀ p : Piece, p.IsOf .expression → ∃ e, p.expr? = some e := by
    rintro _ ⟨e, rfl⟩
    exact ⟨e, rfl⟩
  have hclass : ∀ p : Piece, p.IsOf .classType → ∃ t, p.type? = some t := by
    rintro _ ⟨t, rfl⟩
    exact ⟨t, rfl⟩
  cases r with
  | endOfInput | importOnDemand => exact ⟨_, rfl, rfl⟩
  | emptyStatement | dims => exact ⟨_, rfl, _, rfl⟩
  -- Declarations
  | compilationUnit => exact builds_compilationUnit span text h
  | packageDeclaration =>
    obtain ⟨_, rfl, _, ⟨_, rfl, n, rfl⟩, rfl⟩ := h
    exact ⟨_, rfl, _, rfl⟩
  | importDeclaration =>
    obtain ⟨_, rfl, _, hstatic, _, ⟨_, rfl, n, rfl⟩, _, hdemand, rfl⟩ := h
    rcases hstatic with rfl | ⟨_, rfl, rfl⟩ <;> rcases hdemand with rfl | ⟨_, rfl, rfl⟩ <;>
      exact ⟨_, rfl, _, rfl⟩
  | qualifiedName =>
    refine builds_list span text (f := Piece.name?) ?_ rfl (fun _ => ⟨_, rfl⟩) h
    have hname : ∀ p : Piece, p.IsOf .identifier → ∃ n, p.name? = some n := by
      rintro _ ⟨n, rfl⟩
      exact ⟨n, rfl⟩
    exact And.intro hname (And.intro trivial hname)
  | tag =>
    obtain ⟨_, rfl, _, ⟨_, rfl, n, rfl⟩, hargs⟩ := h
    exact ⟨_, rfl, _, rfl⟩
  | tagArguments | arguments =>
    refine builds_list span text (f := Piece.expr?) ?_ rfl (fun _ => ⟨_, rfl⟩) h
    exact And.intro trivial (And.intro (And.intro hexpr (And.intro trivial hexpr)) trivial)
  | typeDeclaration => exact builds_typeDeclaration span text h
  | typeParameters =>
    refine builds_list span text (f := Piece.typeParameter?) ?_ rfl (fun _ => ⟨_, rfl⟩) h
    have hparam : ∀ p : Piece, p.IsOf .typeParameter → ∃ q, p.typeParameter? = some q := by
      rintro _ ⟨q, rfl⟩
      exact ⟨q, rfl⟩
    exact And.intro trivial (And.intro hparam (And.intro (And.intro trivial hparam) trivial))
  | typeParameter =>
    obtain ⟨_, rfl, n, rfl⟩ := h
    exact ⟨_, rfl, _, rfl⟩
  | extendsClause | implementsClause | throwsClause =>
    refine builds_list span text (f := Piece.type?) ?_ rfl (fun _ => ⟨_, rfl⟩) h
    exact And.intro (fun _ h => False.elim h) (And.intro hclass (And.intro trivial hclass))
  | classBody =>
    refine builds_list span text (f := Piece.member?) ?_ rfl (fun _ => ⟨_, _, rfl⟩) h
    have hmember : ∀ p : Piece, p.IsOf .fieldDeclaration → ∃ m, p.member? = some m := by
      rintro _ ⟨m, rfl⟩
      exact ⟨m, rfl⟩
    have htype : ∀ p : Piece, p.IsOf .typeDeclaration → ∃ m, p.member? = some m := by
      rintro _ ⟨h, body, rfl⟩
      exact ⟨_, rfl⟩
    exact And.intro trivial (And.intro (And.intro htype (And.intro hmember hmember)) trivial)
  | methodDeclaration => exact builds_methodDeclaration span text h
  | formalParameters =>
    refine builds_list span text (f := Piece.parameter?) ?_ rfl (fun _ => ⟨_, rfl⟩) h
    have hparam : ∀ p : Piece, p.IsOf .formalParameter → ∃ q, p.parameter? = some q := by
      rintro _ ⟨q, rfl⟩
      exact ⟨q, rfl⟩
    exact And.intro trivial (And.intro (And.intro hparam (And.intro trivial hparam)) trivial)
  | formalParameter =>
    obtain ⟨_, hmods, _, ⟨_, rfl, t, rfl⟩, _, ⟨_, rfl, n, rfl⟩, hdims⟩ := h
    obtain ⟨ms, rfl⟩ := leaves_modifierList hmods
    unfold Builds Piece.assemble? Piece.parameterOf?
    rw [takeModifiers_append ms rfl]
    rcases hdims with rfl | ⟨_, rfl, d, rfl⟩
    · exact ⟨_, rfl, _, rfl⟩
    · exact ⟨_, rfl, _, rfl⟩
  | fieldDeclaration =>
    obtain ⟨_, hmods, _, htype, _, hfirst, _, hmore, rfl⟩ := h
    obtain ⟨v, hv⟩ := exists_declared? hmods htype hfirst hmore
    exact builds_map span text hv rfl ⟨_, rfl⟩
  | localsDeclaration =>
    obtain ⟨_, hmods, _, htype, _, hfirst, hmore⟩ := h
    obtain ⟨v, hv⟩ := exists_declared? hmods htype hfirst hmore
    exact builds_map span text hv rfl ⟨_, _, rfl⟩
  | variableDeclarator =>
    obtain ⟨_, ⟨_, rfl, n, rfl⟩, _, hdims, hinit⟩ := h
    rcases hinit with rfl | ⟨_, rfl, hinit⟩
    · rcases hdims with rfl | ⟨_, rfl, d, rfl⟩
      · exact ⟨_, rfl, _, rfl⟩
      · exact ⟨_, rfl, _, rfl⟩
    · obtain ⟨e, rfl⟩ := leaves_variableInitializer hinit
      rcases hdims with rfl | ⟨_, rfl, d, rfl⟩
      · exact ⟨_, rfl, _, rfl⟩
      · exact ⟨_, rfl, _, rfl⟩
  -- Types
  | javaType =>
    obtain ⟨_, htype, hdims⟩ := h
    obtain ⟨t, rfl⟩ := leaves_baseType htype
    rcases hdims with rfl | ⟨_, rfl, d, rfl⟩
    · exact ⟨_, rfl, _, rfl⟩
    · exact ⟨_, rfl, _, rfl⟩
  | classType =>
    obtain ⟨_, ⟨_, rfl, n, rfl⟩, hargs⟩ := h
    rcases hargs with rfl | ⟨_, rfl, ts, rfl⟩
    · exact ⟨_, rfl, _, rfl⟩
    · exact ⟨_, rfl, _, rfl⟩
  | typeArguments =>
    refine builds_list span text (f := Piece.type?) ?_ rfl (fun _ => ⟨_, rfl⟩) h
    exact And.intro trivial (And.intro hclass (And.intro (And.intro trivial hclass) trivial))
  -- Statements
  | block =>
    obtain ⟨_, rfl, _, hstmts, rfl⟩ := h
    obtain ⟨ss, rfl⟩ := hstmts.exists_map (f := .stmt) fun hqs => by
      rcases hqs with ⟨_, rfl, s, rfl⟩ | hqs
      · exact ⟨s, rfl⟩
      · exact leaves_statement hqs
    obtain ⟨all, hall⟩ : ∃ all, (ss.map Piece.stmt ++ []).mapM Piece.stmt? = some all :=
      exists_mapM (by simp [Piece.stmt?])
    exact builds_map span text hall rfl ⟨_, _, rfl⟩
  | localsStatement =>
    obtain ⟨_, ⟨_, rfl, s, v, rfl⟩, rfl⟩ := h
    exact ⟨_, rfl, _, rfl⟩
  | ifStatement =>
    obtain ⟨_, rfl, _, rfl, _, ⟨_, rfl, c, rfl⟩, _, rfl, _, hyes, hno⟩ := h
    obtain ⟨yes, rfl⟩ := leaves_statement hyes
    rcases hno with rfl | ⟨_, rfl, hno⟩
    · exact ⟨_, rfl, _, rfl⟩
    · obtain ⟨no, rfl⟩ := leaves_statement hno
      exact ⟨_, rfl, _, rfl⟩
  | whileStatement =>
    obtain ⟨_, rfl, _, rfl, _, ⟨_, rfl, c, rfl⟩, _, rfl, hbody⟩ := h
    obtain ⟨body, rfl⟩ := leaves_statement hbody
    exact ⟨_, rfl, _, rfl⟩
  | doStatement =>
    obtain ⟨_, rfl, _, hbody, _, rfl, _, rfl, _, ⟨_, rfl, c, rfl⟩, _, rfl, rfl⟩ := h
    obtain ⟨body, rfl⟩ := leaves_statement hbody
    exact ⟨_, rfl, _, rfl⟩
  | forEachStatement =>
    obtain ⟨_, rfl, _, rfl, _, ⟨_, rfl, p, rfl⟩, _, rfl, _, ⟨_, rfl, e, rfl⟩, _, rfl, hbody⟩ := h
    obtain ⟨body, rfl⟩ := leaves_statement hbody
    exact ⟨_, rfl, _, rfl⟩
  | forStatement =>
    obtain ⟨_, rfl, _, rfl, _, hinit, _, rfl, _, hcond, _, rfl, _, hupdate, _, rfl, hbody⟩ := h
    obtain ⟨body, rfl⟩ := leaves_statement hbody
    rcases hinit with rfl | ⟨_, rfl, i, rfl⟩ <;> rcases hcond with rfl | ⟨_, rfl, c, rfl⟩ <;>
      rcases hupdate with rfl | ⟨_, rfl, es, rfl⟩ <;> exact ⟨_, rfl, _, rfl⟩
  | forInit =>
    rcases h with ⟨_, rfl, s, v, rfl⟩ | h
    · exact ⟨_, rfl, _, rfl⟩
    · obtain ⟨es, hes⟩ := h.exists_mapM (And.intro hexpr (And.intro trivial hexpr))
      obtain ⟨_, ⟨_, rfl, e, rfl⟩, -⟩ := h
      exact builds_map span text hes rfl ⟨_, rfl⟩
  | forUpdate =>
    refine builds_list span text (f := Piece.expr?) ?_ rfl (fun _ => ⟨_, rfl⟩) h
    exact And.intro hexpr (And.intro trivial hexpr)
  | returnStatement =>
    obtain ⟨_, rfl, _, hvalue, rfl⟩ := h
    rcases hvalue with rfl | ⟨_, rfl, e, rfl⟩
    · exact ⟨_, rfl, _, rfl⟩
    · exact ⟨_, rfl, _, rfl⟩
  | breakStatement | continueStatement =>
    obtain ⟨_, rfl, _, hlabel, rfl⟩ := h
    rcases hlabel with rfl | ⟨_, rfl, n, rfl⟩
    · exact ⟨_, rfl, _, rfl⟩
    · exact ⟨_, rfl, _, rfl⟩
  | throwStatement =>
    obtain ⟨_, rfl, _, ⟨_, rfl, e, rfl⟩, rfl⟩ := h
    exact ⟨_, rfl, _, rfl⟩
  | expressionStatement =>
    obtain ⟨_, ⟨_, rfl, e, rfl⟩, rfl⟩ := h
    exact ⟨_, rfl, _, rfl⟩
  -- Expressions
  | arrayInitializer =>
    refine builds_list span text (f := Piece.expr?) ?_ rfl (fun _ => ⟨_, _, rfl⟩) h
    have harray : ∀ p : Piece, p.IsOf .arrayInitializer → ∃ e, p.expr? = some e := by
      rintro _ ⟨s, es, rfl⟩
      exact ⟨_, rfl⟩
    have hinit : Only (fun p => ∃ e, p.expr? = some e) Rule.variableInitializer :=
      And.intro harray hexpr
    exact And.intro trivial (And.intro (And.intro hinit (And.intro trivial hinit))
      (And.intro trivial trivial))
  | expression =>
    rcases h with ⟨_, rfl, e, rfl⟩ | ⟨_, rfl, e, rfl⟩
    · exact ⟨_, rfl, _, rfl⟩
    · exact ⟨_, rfl, _, rfl⟩
  | assignment =>
    obtain ⟨_, ⟨_, rfl, left, rfl⟩, _, ⟨_, rfl, op, rfl⟩, _, rfl, right, rfl⟩ := h
    exact ⟨_, rfl, _, rfl⟩
  | conditionalExpression =>
    obtain ⟨_, ⟨_, rfl, e, rfl⟩, hchoice⟩ := h
    rcases hchoice with rfl | ⟨_, rfl, _, ⟨_, rfl, yes, rfl⟩, _, rfl, _, rfl, no, rfl⟩
    · exact ⟨_, rfl, _, rfl⟩
    · exact ⟨_, rfl, _, rfl⟩
  | binaryExpression =>
    obtain ⟨_, ⟨_, rfl, e, rfl⟩, hlinks⟩ := h
    obtain ⟨links, hlinks⟩ := exists_links? rfl hlinks
    exact builds_map span text hlinks rfl ⟨_, rfl⟩
  | instanceofSuffix =>
    obtain ⟨_, rfl, _, rfl, t, rfl⟩ := h
    exact ⟨_, rfl, _, _, rfl⟩
  | unaryExpression =>
    rcases h with ⟨_, ⟨_, rfl, op, rfl⟩, _, rfl, e, rfl⟩ | ⟨_, rfl, e, rfl⟩ | ⟨_, rfl, e, rfl⟩
    · exact ⟨_, rfl, _, rfl⟩
    · exact ⟨_, rfl, _, rfl⟩
    · exact ⟨_, rfl, _, rfl⟩
  | castExpression =>
    rcases h with ⟨_, rfl, _, rfl, _, ⟨_, rfl, t, rfl⟩, _, rfl, _, rfl, e, rfl⟩ |
      ⟨_, rfl, _, ⟨_, rfl, t, rfl⟩, _, rfl, _, rfl, _, rfl, e, rfl⟩
    · exact ⟨_, rfl, _, rfl⟩
    · exact ⟨_, rfl, _, rfl⟩
  | postfixExpression => exact builds_postfixExpression span text h
  | methodSelector =>
    obtain ⟨_, rfl, _, ⟨_, rfl, n, rfl⟩, _, rfl, es, rfl⟩ := h
    exact ⟨_, rfl, _, rfl⟩
  | fieldSelector =>
    obtain ⟨_, rfl, _, rfl, n, rfl⟩ := h
    exact ⟨_, rfl, _, rfl⟩
  | indexSelector | parenthesized | dimExpr =>
    obtain ⟨_, rfl, _, ⟨_, rfl, e, rfl⟩, rfl⟩ := h
    exact ⟨_, rfl, _, rfl⟩
  | unqualifiedCall =>
    obtain ⟨_, ⟨_, rfl, n, rfl⟩, _, rfl, es, rfl⟩ := h
    exact ⟨_, rfl, _, rfl⟩
  | classInstanceCreation =>
    obtain ⟨_, rfl, _, ⟨_, rfl, t, rfl⟩, _, rfl, es, rfl⟩ := h
    exact ⟨_, rfl, _, rfl⟩
  | arrayCreation => exact builds_arrayCreation span text h
  | _ => cases hr

end Rules

/-! ## Tokens -/

/-- The word of a token of a closed set of words is that of a member of the set. -/
def Rule.HasWord (r : Rule) (t : String) : Prop :=
  match r with
  | .modifier => ∃ k : Keyword, ofWord? t = some k ∧ word k = t
  | .primitiveType | .voidType => ∃ k : Primitive, ofWord? t = some k ∧ word k = t
  | .assignmentOperator => ∃ op : AssignOp, ofWord? t = some op ∧ word op = t
  | .infixOperator op => ofWord? t = some op ∧ word op = t
  | .prefixOperator => ∃ op : PrefixOp, ofWord? t = some op ∧ word op = t
  | .postfixOperator => ∃ op : PostfixOp, ofWord? t = some op ∧ word op = t
  | _ => True

theorem exists_ofWord? [Worded α] (ws : List String)
    (hws : ∀ t ∈ ws, (ofWord? t : Option α).isSome = true) {t : String} (ht : t ∈ ws) :
    ∃ a : α, ofWord? t = some a ∧ word a = t := by
  obtain ⟨a, ha⟩ := Option.isSome_iff_exists.1 (hws t ht)
  exact ⟨a, ha, word_of_ofWord? ha⟩

theorem eq_of_word {m : Mode} {v : List Char} {c d : Cursor} {parts : List (Derivation Rule)}
    (hw : c.Reaches w d) (h : Takes Rule.grammar m (.once (.word v)) c parts d) : w = v := by
  have hsame := h.of_word.rest_eq
  rw [hw.rest_eq] at hsame
  exact List.append_cancel_right hsame

theorem word_of_assignmentOperator (h : Spells .assignmentOperator w) :
    String.ofList w ∈ ["=", "+=", "-=", "*=", "/=", "%=", "&=", "|=", "^=", "<<=", ">>>=",
      ">>="] := by
  obtain ⟨m, c, parts, d, hm, hw, htakes⟩ := h
  cases htakes with
  | left h =>
    obtain ⟨_, mid, _, hword, hahead⟩ := h.of_seq hm
    obtain ⟨rfl, -⟩ := hahead.of_notAhead
    obtain rfl := eq_of_word hw hword
    exact List.mem_cons_self
  | right _ h => exact List.mem_cons_of_mem _ (of_oneOf hw h)

/-- The grammar spells an infix operator as the operator is spelled. -/
theorem infixToken_eq (op : InfixOp) :
    ∃ longer, Rule.infixToken op = Rule.operator (word op) longer := by
  cases op <;> exact ⟨_, rfl⟩

theorem word_of_infixOperator {op : InfixOp} (h : Spells (.infixOperator op) w) :
    String.ofList w = word op := by
  obtain ⟨m, c, parts, d, hm, hw, htakes⟩ := h
  obtain ⟨longer, htoken⟩ := infixToken_eq op
  have hbody : Rule.grammar.body (.infixOperator op) = Rule.operator (word op) longer := htoken
  rw [hbody, Rule.operator] at htakes
  split at htakes
  · rw [eq_of_word hw htakes, String.ofList_toList]
  · obtain ⟨_, mid, _, hword, hahead⟩ := htakes.of_seq hm
    obtain ⟨rfl, -⟩ := hahead.of_notAhead
    rw [eq_of_word hw hword, String.ofList_toList]

theorem hasWord_of_spells (h : Spells r w) :
    r.HasWord (String.ofList w) := by
  cases r with
  | modifier =>
    exact exists_ofWord? modifierWords (by decide) (h.of_wholeWord rfl)
  | primitiveType =>
    exact exists_ofWord? primitiveWords (by decide) (h.of_wholeWord rfl)
  | voidType => exact exists_ofWord? ["void"] (by decide) (h.of_wholeWord rfl)
  | assignmentOperator => exact exists_ofWord? _ (by decide) (word_of_assignmentOperator h)
  | infixOperator op =>
    have hword := word_of_infixOperator h
    exact ⟨by rw [hword, ofWord?_word], hword.symm⟩
  | prefixOperator =>
    obtain ⟨m, c, parts, d, -, hw, htakes⟩ := h
    exact exists_ofWord? ["++", "--", "+", "-", "!", "~"] (by decide)
      (of_oneOf hw htakes)
  | postfixOperator =>
    obtain ⟨m, c, parts, d, -, hw, htakes⟩ := h
    exact exists_ofWord? ["++", "--"] (by decide) (of_oneOf hw htakes)
  | _ => trivial

/-- The text of a token makes its piece. -/
theorem builds_of_spells (span : Span) (hr : r.kind = .token) (hplain : Piece.isPlainWord r = false)
    (hkeyword : r ≠ .keyword) (h : Spells r w) :
    Builds span w r [] := by
  have hword := hasWord_of_spells h
  cases r with
  | keyword => exact absurd rfl hkeyword
  | identifier | thisExpression | floatLiteral | integerLiteral | charLiteral | stringLiteral
  | booleanLiteral | nullLiteral => exact ⟨_, rfl, _, rfl⟩
  | kwClass | kwInterface | importStatic => exact ⟨_, rfl, rfl⟩
  | infixOperator op => exact builds_map _ w hword.1 rfl rfl
  | modifier | primitiveType | voidType | assignmentOperator | prefixOperator | postfixOperator =>
    obtain ⟨k, hk, -⟩ := hword
    exact builds_map _ w hk rfl ⟨_, rfl⟩
  | kwPackage | kwImport | kwExtends | kwImplements | kwThrows | kwIf | kwElse | kwWhile | kwDo
  | kwFor | kwReturn | kwBreak | kwContinue | kwThrow | kwNew | kwInstanceof => cases hplain
  | _ => cases hr

end Transcribe.Java
