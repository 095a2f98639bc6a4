/-
  Transcribe.Script.Node — the script of any node.
-/

import Transcribe.Script.Unit
import Transcribe.Java.Node

namespace Transcribe.Script

open Java (Node)

def ofNode (s : Setting) : Node → Script
  | .unit u => ofUnit s u
  | .package p => ofPackage s p
  | .importing i => ofImport s i
  | .decl d => ofDecl s d
  | .field f => ofField s f
  | .method m => ofMethod s m
  | .parameter p => ofParameter s p
  | .fragment f => ofFragment s f
  | .modifier m => ofModifier s.isCpp m
  | .type t => ofType s.profile t
  | .typeParameter p => ofTypeParameter p
  | .stmt t => ofStmt s t
  | .expr e => ofExpr s e
  | .locals span vars => framed span (ofLocals s vars)

end Transcribe.Script
