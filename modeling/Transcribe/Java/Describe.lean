/-
  Transcribe.Java.Describe — a syntax tree as JSON.

  A node is an object of its fields in a fixed order. Where several kinds of node may stand,
  the node is wrapped in an object with the kind as its only key.
-/

import Transcribe.Data.Json
import Transcribe.Java.Label

namespace Transcribe.Java.Describe

open Text (Span)
open Data (Json)

def tagged (kind : String) (fields : List (String × Json)) : Json := .obj [(kind, .obj fields)]

def optional {α : Type} (f : α → Json) : Option α → Json
  | none => .null
  | some a => f a

def span (s : Span) : Json := .obj [("start", .nat s.start), ("end", .nat s.stop)]

def simpleName (n : SimpleName) : Json :=
  .obj [("span", span n.span), ("identifier", .str n.text)]

def name (n : Name) : Json :=
  .obj [("span", span n.span), ("segments", .arr (n.segments.map simpleName))]

def modifier : Modifier → Json
  | .keyword s k => tagged "Modifier" [("span", span s), ("keyword", .str k.label)]
  | .tag s n => tagged "Annotation" [("span", span s), ("name", name n)]

def modifiers (ms : List Modifier) : Json := .arr (ms.map modifier)

def simpleType (t : SimpleType) : Json := .obj [("span", span t.span), ("name", name t.name)]

mutual

def type : Ty → Json
  | .primitive s k => tagged "Primitive" [("span", span s), ("kind", .str k.label)]
  | .simple t => tagged "Simple" [("span", span t.span), ("name", name t.name)]
  | .array s element n =>
    tagged "Array" [("span", span s), ("element_type", type element), ("dimensions", .nat n)]
  | .generic s base arguments =>
    tagged "Parameterized" [("span", span s), ("base", simpleType base),
      ("arguments", .arr (types arguments))]

def types : List Ty → List Json
  | [] => []
  | t :: ts => type t :: types ts

end

mutual

def expr : Expr → Json
  | .literal s k t =>
    tagged "Literal" [("span", span s), ("kind", .str k.label), ("token", .str t)]
  | .name n => .obj [("Name", simpleName n)]
  | .self s => tagged "This" [("span", span s)]
  | .field s target n =>
    tagged "FieldAccess" [("span", span s), ("expression", expr target), ("name", simpleName n)]
  | .call s n arguments =>
    tagged "MethodInvocation" [("span", span s), ("expression", .null), ("name", simpleName n),
      ("arguments", .arr (exprs arguments))]
  | .invoke s target n arguments =>
    tagged "MethodInvocation" [("span", span s), ("expression", expr target),
      ("name", simpleName n), ("arguments", .arr (exprs arguments))]
  | .create s t arguments =>
    tagged "ClassInstanceCreation" [("span", span s), ("class_type", type t),
      ("arguments", .arr (exprs arguments))]
  | .newSized s element lengths n =>
    tagged "ArrayCreation" [("span", span s), ("element_type", type element),
      ("dimensions", .arr (exprs lengths)), ("extra_dimensions", .nat n),
      ("initializer", .null)]
  | .newListed s element n listSpan items =>
    tagged "ArrayCreation" [("span", span s), ("element_type", type element),
      ("dimensions", .arr []), ("extra_dimensions", .nat n),
      ("initializer", .obj [("span", span listSpan), ("expressions", .arr (exprs items))])]
  | .arrayInit s items =>
    tagged "ArrayInitializer" [("span", span s), ("expressions", .arr (exprs items))]
  | .index s array position =>
    tagged "ArrayAccess" [("span", span s), ("array", expr array), ("index", expr position)]
  | .assign s left op right =>
    tagged "Assignment" [("span", span s), ("left", expr left), ("operator", .str op.label),
      ("right", expr right)]
  | .binary s left op right =>
    tagged "Infix" [("span", span s), ("left", expr left), ("operator", .str op.label),
      ("right", expr right)]
  | .instanceOf s operand t =>
    tagged "Instanceof" [("span", span s), ("expression", expr operand), ("right_type", type t)]
  | .prefixed s op operand =>
    tagged "Prefix" [("span", span s), ("operator", .str op.label), ("operand", expr operand)]
  | .postfixed s operand op =>
    tagged "Postfix" [("span", span s), ("operand", expr operand), ("operator", .str op.label)]
  | .conditional s condition yes no =>
    tagged "Conditional" [("span", span s), ("condition", expr condition),
      ("then_expression", expr yes), ("else_expression", expr no)]
  | .paren s inner => tagged "Parenthesized" [("span", span s), ("expression", expr inner)]
  | .cast s t operand =>
    tagged "Cast" [("span", span s), ("cast_type", type t), ("expression", expr operand)]

def exprs : List Expr → List Json
  | [] => []
  | e :: es => expr e :: exprs es

end

def fragment (f : Fragment) : Json :=
  .obj [("span", span f.span), ("name", simpleName f.name), ("extra_dimensions", .nat f.extraDims),
    ("initializer", optional expr f.init?)]

/-- The fields of a declaration of variables; fields and locals name their type differently. -/
def declared (s : Span) (typeKey : String) (v : Variables) : List (String × Json) :=
  [("span", span s), ("modifiers", modifiers v.modifiers), (typeKey, type v.type),
   ("fragments", .arr (v.fragments.map fragment))]

def parameter (p : Parameter) : Json :=
  .obj [("span", span p.span), ("modifiers", modifiers p.modifiers), ("var_type", type p.type),
    ("name", simpleName p.name), ("extra_dimensions", .nat p.extraDims)]

def forInit : ForInit → List Json
  | .exprs es => es.map expr
  | .locals s v => [tagged "VariableDeclaration" (declared s "var_type" v)]

mutual

def stmt : Stmt → Json
  | .block s body => tagged "Block" [("span", span s), ("statements", .arr (stmts body))]
  | .locals s v => tagged "VariableDeclaration" (declared s "var_type" v)
  | .expr s e => tagged "Expression" [("span", span s), ("expression", expr e)]
  | .ifThen s condition yes =>
    tagged "If" [("span", span s), ("condition", expr condition), ("then_statement", stmt yes),
      ("else_statement", .null)]
  | .ifElse s condition yes no =>
    tagged "If" [("span", span s), ("condition", expr condition), ("then_statement", stmt yes),
      ("else_statement", stmt no)]
  | .whileLoop s condition body =>
    tagged "While" [("span", span s), ("condition", expr condition), ("body", stmt body)]
  | .doLoop s body condition =>
    tagged "Do" [("span", span s), ("body", stmt body), ("condition", expr condition)]
  | .forLoop s init condition? updates body =>
    tagged "For" [("span", span s), ("initializers", .arr (forInit init)),
      ("condition", optional expr condition?), ("updaters", .arr (exprs updates)),
      ("body", stmt body)]
  | .forEach s item items body =>
    tagged "EnhancedFor" [("span", span s), ("parameter", parameter item),
      ("expression", expr items), ("body", stmt body)]
  | .ret s value? => tagged "Return" [("span", span s), ("expression", optional expr value?)]
  | .leave s label? => tagged "Break" [("span", span s), ("label", optional simpleName label?)]
  | .next s label? => tagged "Continue" [("span", span s), ("label", optional simpleName label?)]
  | .throwing s e => tagged "Throw" [("span", span s), ("expression", expr e)]
  | .empty s => tagged "Empty" [("span", span s)]

def stmts : List Stmt → List Json
  | [] => []
  | s :: ss => stmt s :: stmts ss

end

def block (b : Block) : Json := .obj [("span", span b.span), ("statements", .arr (stmts b.body))]

def method (m : Method) : List (String × Json) :=
  [("span", span m.span), ("modifiers", modifiers m.modifiers),
   ("return_type", optional type m.returnType?), ("name", simpleName m.name),
   ("parameters", .arr (m.parameters.map parameter)),
   ("thrown_exceptions", .arr (types m.thrown)), ("body", optional block m.body?)]

def typeParameter (p : TypeParameter) : Json :=
  .obj [("span", span p.span), ("name", simpleName p.name)]

def typeDecl (h : TypeHead) (body : List Json) : List (String × Json) :=
  [("span", span h.span), ("modifiers", modifiers h.modifiers),
   ("is_interface", .bool h.isInterface), ("name", simpleName h.name),
   ("type_parameters", .arr (h.typeParameters.map typeParameter)),
   ("extends", .arr (types h.extended)), ("implements", .arr (types h.implemented)),
   ("body_span", span h.bodySpan), ("body", .arr body)]

mutual

def member : Member → Json
  | .field f => tagged "Field" (declared f.span "field_type" f.vars)
  | .method m => tagged "Method" (method m)
  | .type h body => tagged "Type" (typeDecl h (members body))

def members : List Member → List Json
  | [] => []
  | m :: ms => member m :: members ms

end

def package (p : Package) : Json := .obj [("span", span p.span), ("name", name p.name)]

def importing (i : Import) : Json :=
  .obj [("span", span i.span), ("is_static", .bool i.isStatic), ("name", name i.name),
    ("on_demand", .bool i.onDemand)]

def unit (u : CompilationUnit) : Json :=
  .obj [("span", span u.span), ("package", optional package u.package?),
    ("imports", .arr (u.imports.map importing)),
    ("types", .arr (u.types.map fun d => .obj (typeDecl d.head (members d.body))))]

end Transcribe.Java.Describe
