/-
  Transcribe.Problem — what can go wrong with a source, and how it is reported.

  A report has a kind, a text, and where it concerns a source, a place in it and help.
-/

import Transcribe.Java.Parse
import Transcribe.Pen.Failure
import Transcribe.Target.Overrides

namespace Transcribe

inductive FileError where
  | read (path : String)
  | readProfile (path : String)
  | walk (path : String)
  | createDirectory (path : String)
  | write (path : String)
  deriving Repr, DecidableEq

def FileError.text : FileError → String
  | .read path => "cannot read " ++ path
  | .readProfile path => "cannot read profile " ++ path
  | .walk path => "cannot walk " ++ path
  | .createDirectory path => "cannot create " ++ path
  | .write path => "cannot write " ++ path

inductive Problem where
  | parsing (f : Java.ParseFailure)
  | writing (f : Failure)
  | profile (e : Target.ProfileError)
  | file (e : FileError)
  deriving Repr, DecidableEq

namespace Problem

inductive Kind where
  | unsupported | internal | parse | io | config
  deriving Repr, DecidableEq

def Kind.word : Kind → String
  | .unsupported => "Unsupported"
  | .internal => "Internal"
  | .parse => "Parse"
  | .io => "Io"
  | .config => "Config"

def Kind.code : Kind → String
  | .unsupported => "crosswalk::unsupported"
  | .internal => "crosswalk::internal"
  | .parse => "crosswalk::parse"
  | .io => "crosswalk::io"
  | .config => "crosswalk::config"

def kind : Problem → Kind
  | .parsing _ => .parse
  | .writing (.rejected _ _) => .unsupported
  | .writing _ => .internal
  | .profile _ => .config
  | .file _ => .io

/-- What went wrong, without kind and place. -/
def cause : Problem → String
  | .parsing f => f.message
  | .writing (.rejected what _) => what.text
  | .writing (.breached what _) => what.text
  | .writing .outside => "text cut inside a character or behind its end"
  | .profile e => e.text
  | .file e => e.text

def place? : Problem → Option Text.Place
  | .writing (.rejected _ place) => some place
  | .writing (.breached _ place) => some place
  | _ => none

def offset? : Problem → Option Nat
  | .parsing f => some f.offset
  | p => p.place?.map (·.offset)

def help? (p : Problem) : Option String := p.place?.map (·.excerpt)

def Kind.lead : Kind → String
  | .unsupported => "Unsupported construct: "
  | .internal => "Internal invariant violated: "
  | .parse => "Parse error: "
  | .io => "I/O error: "
  | .config => "Configuration error: "

def text (p : Problem) : String :=
  p.kind.lead ++ p.cause ++
    match p.place? with
    | some place => " at " ++ place.label
    | none => ""

end Problem

end Transcribe
