/-
  Transcribe.Output.Basic — the files a source becomes.

  Every type at the top level of a source becomes a file with its declaration and, where the
  target keeps method bodies apart, a file with the definitions of its methods.

  A file with a declaration has package and imports in front, then the type with the space and
  comments that belong to it, then an end. A file with definitions includes the first file and has
  the methods with a body one by one, moved out of their class and to the left margin. A file is
  named by its type.
  - `definitions`: the methods that get a definition, each with its class and the names of the
    classes around it.
  - `Job.files`: the files of a source; one type that cannot be written keeps all from being.
  - `Job.nodeText`: a node by itself.
-/

import Transcribe.Script.Node

namespace Transcribe.Output

open Java (Node TypeHead TypeDecl Member Method CompilationUnit)
open Script (ofDecl ofMethod ofNode ofPrologue ofEpilogue openNamespace)

structure File where
  name : String
  contents : String
  deriving Repr, DecidableEq

/-- A method with a body, the class that declares it and the names of the classes around it. -/
structure Definition where
  owner : TypeHead
  qualifier : String
  method : Method

mutual

def definitionsOf (owner : TypeHead) (qualifier : String) : Member → List Definition
  | .field _ => []
  | .method m => if m.body?.isSome then [⟨owner, qualifier, m⟩] else []
  | .type h body => definitionsIn h (qualifier ++ "::" ++ h.name.text) body

def definitionsIn (owner : TypeHead) (qualifier : String) : List Member → List Definition
  | [] => []
  | m :: ms => definitionsOf owner qualifier m ++ definitionsIn owner qualifier ms

end

def definitions (d : TypeDecl) : List Definition := definitionsIn d.head d.head.name.text d.body

/-! ## Scripts of files -/

/-- Moves to what belongs to the type at an index. Where nothing precedes the first type, all
that stands before it belongs to it. -/
def leadScript (u : CompilationUnit) (index : Nat) (d : TypeDecl) : Script :=
  if index == 0 && u.package?.isNone && u.imports.isEmpty then [.moveTo 0]
  else [.moveToLead d.head.span.start]

def declarationScript (p : Target.Profile) (u : CompilationUnit) (index : Nat) (d : TypeDecl) :
    Script :=
  let s := Setting.ofProfile p
  ofPrologue s u ++ leadScript u index d ++ .copySpace :: ofDecl s d
    ++ .copyTrail :: ofEpilogue s u

/-- One definition, moved out of its class and to the left margin. -/
def definitionScript (p : Target.Profile) (d : Definition) : Script :=
  let s := Setting.ofProfile p
  let start := d.method.span.start
  [.newline, .moveToLead start, .skipBlankLines, .dedentBy start, .copySpace]
    ++ ofMethod { s with part := .source, qualifier := d.qualifier, enclosing? := some d.owner }
      d.method
    ++ [.copyTrail, .undent, .newline]

def definitionsScript (p : Target.Profile) (u : CompilationUnit) (d : TypeDecl) : Script :=
  .write ("#include \x22" ++ d.head.name.text ++ "." ++ p.language.extension ++ "\x22") :: .newline
    :: u.package?.toList.flatMap (fun k => .newline :: openNamespace k)
    ++ (definitions d).flatMap (definitionScript p)
    ++ if u.package?.isSome then [.newline, .write "\x7d", .newline] else []

/-- A node by itself, with the space and comments that belong to it. It is written as part of
the first type of its source. -/
def nodeScript (p : Target.Profile) (u : CompilationUnit) (n : Node) : Script :=
  let s := Setting.ofProfile p
  let inBody := match n with
    | .stmt _ => true
    | _ => false
  .moveToLead n.span.start :: .copySpace
    :: ofNode { s with inBody, enclosing? := u.types.head?.map (·.head) } n ++ [.copyTrail]

end Transcribe.Output

namespace Transcribe

/-! ## Writing -/

namespace Job

open Output

def text (j : Job) (script : Script) : Except Failure String :=
  match j.run script j.pen with
  | .ok p => .ok p.sink.text
  | .error e => .error e.failure

def file (j : Job) (name extension : String) (script : Script) : Except Failure File :=
  (j.text script).map fun t => ⟨name ++ "." ++ extension, t⟩

def typeFiles (j : Job) (u : Java.CompilationUnit) (index : Nat) (d : Java.TypeDecl) :
    Except Failure (List File) := do
  let name := d.head.name.text
  let declaration ← j.file name j.profile.language.extension
    (declarationScript j.profile u index d)
  match j.profile.language.sourceExtension? with
  | none => return [declaration]
  | some extension =>
    let definitions ← j.file name extension (definitionsScript j.profile u d)
    return [declaration, definitions]

def filesFrom (j : Job) (u : Java.CompilationUnit) : Nat → List Java.TypeDecl →
    Except Failure (List File)
  | _, [] => .ok []
  | index, d :: ds => do
    let first ← j.typeFiles u index d
    let rest ← filesFrom j u (index + 1) ds
    return first ++ rest

/-- The files a source becomes. One type that cannot be written keeps all from being. -/
def files (j : Job) (u : Java.CompilationUnit) : Except Failure (List File) :=
  j.filesFrom u 0 u.types

def nodeText (j : Job) (u : Java.CompilationUnit) (n : Java.Node) : Except Failure String :=
  j.text (nodeScript j.profile u n)

end Job

end Transcribe
