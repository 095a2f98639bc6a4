/-
  Transcribe.Script.Unit — scripts of packages, imports and whole files.

  C++ has its includes in front of the namespace, so the package is left out where it stands
  and the namespace opened behind the last import. An import of one class is an include of its
  header, and an import on demand goes with its line. In C# a package is a namespace for the rest
  of the file, and an import is the use of the namespace it names.
  - `ofPrologue`, `ofEpilogue`: what stands in front of the types and behind them.
-/

import Transcribe.Script.Decl

namespace Transcribe.Script

open Java (Package Import CompilationUnit)

def ofPackage (s : Setting) (p : Package) : Script :=
  framed p.span <|
    if s.isCpp then .drop "package" :: .skipSpace :: dropName p.name ++ [.skipSpace, .drop ";"]
    else .swap "package" "namespace" :: .copyDelimiter :: dropName p.name
      ++ .write (p.name.joined ".") :: token ";"

def importLine (s : Setting) (i : Import) : Option String :=
  if s.isCpp then
    if i.onDemand then none else some ("#include \x22" ++ i.name.last ++ ".h\x22")
  else
    (if i.onDemand then some (i.name.joined ".") else i.name.qualifier? ".").map fun n =>
      "using " ++ n ++ ";"

def ofImport (s : Setting) (i : Import) : Script :=
  framed i.span <|
    if i.isStatic then [.reject .staticImport]
    else .drop "import" :: .moveTo i.span.stop :: (importLine s i).toList.map .write

def openNamespace (p : Package) : Script :=
  [.write ("namespace " ++ p.name.joined "::" ++ " \x7b"), .newline]

/-- Whether the line of an import goes entirely. -/
def isDropped (s : Setting) (i : Import) : Bool := s.isCpp && i.onDemand

/-- Whether the last line of package and imports was written out. -/
def lineOpen (s : Setting) (u : CompilationUnit) : Bool :=
  match u.imports.getLast? with
  | some i => !isDropped s i
  | none => u.package?.isSome && !s.isCpp

def ofPrologue (s : Setting) (u : CompilationUnit) : Script :=
  u.package?.toList.flatMap (fun p =>
    .copySpace :: ofPackage s p ++ if s.isCpp then [.skipLine, .skipBlankLines] else [])
    ++ u.imports.flatMap (fun i =>
      .copySpace :: ofImport s i ++ if isDropped s i then [.skipLine] else [])
    ++ (if lineOpen s u then [.copyLine] else [])
    ++ match u.package? with
      | some p =>
        if s.isCpp then .closeLine 2 :: openNamespace p
        else if lineOpen s u then [.copyBreak] else []
      | none => if lineOpen s u then [.copyBreak] else []

/-- The end of the output: the last line is ended and the namespace closed. -/
def ofEpilogue (s : Setting) (u : CompilationUnit) : Script :=
  .closeLine 1 :: if s.isCpp && u.package?.isSome then [.write "\x7d", .newline] else []

def ofUnit (s : Setting) (u : CompilationUnit) : Script :=
  framed u.span <|
    ofPrologue s u ++ u.types.flatMap (fun d => .copySpace :: ofDecl s d)
      ++ ofEpilogue s u ++ [.trailPast u.span.stop]

end Transcribe.Script
